/-
Merge sort, comparison by comparison.

What a sort makes of a list depends on the answers to its comparisons and on nothing else, and it
makes something of it whatever the answers are.  So a sort whose comparisons are programs is
described in two steps: the comparisons that it makes, with their answers, and what the answers
make of the list.

* `Merges`, `Sorts` — the courses of a merge and of a sort, with their comparisons;
* `Sorts.perm` — no element is lost or doubled, even if the answers contradict each other;
* `Sorts.placed` — answers that follow a strict weak order leave no element behind a greater one,
  and equivalent elements in the order in which they came;
* `Sorts.related` — a list of more than one element has all its elements compared, in a row;
* `mergeSort_runs` — every run of a sort takes such a course, or ends at the first comparison that
  fails;
* `exists_mergeSort_runs` — a sort ends if its comparisons do.
-/
import Lua.Proofs.Execution
import Lua.Sort

namespace Lua.Sort

variable {α β : Type}

/-! ### Courses -/

/-- A comparison with its answer. -/
structure Comparison (α : Type) where
  left : α
  right : α
  isLess : Bool

/-- The course of a merge of two lists, with the comparisons that it makes. -/
inductive Merges : List α → List α → List (Comparison α) → List α → Prop
  | secondLeft (rs) : Merges [] rs [] rs
  | firstLeft (ls) : Merges ls [] [] ls
  | takeSecond {l r ls rs cs out} (h : Merges (l :: ls) rs cs out) :
      Merges (l :: ls) (r :: rs) (⟨r, l, true⟩ :: cs) (r :: out)
  | takeFirst {l r ls rs cs out} (h : Merges ls (r :: rs) cs out) :
      Merges (l :: ls) (r :: rs) (⟨r, l, false⟩ :: cs) (l :: out)

/-- The course of a sort.  A list of more than one element is cut into two that are not empty. -/
inductive Sorts : List α → List (Comparison α) → List α → Prop
  | nil : Sorts [] [] []
  | single (x) : Sorts [x] [] [x]
  | halves {front back left right cs₁ cs₂ cs₃ out} (hfront : front ≠ []) (hback : back ≠ [])
      (hleft : Sorts front cs₁ left) (hright : Sorts back cs₂ right)
      (h : Merges left right cs₃ out) : Sorts (front ++ back) (cs₁ ++ (cs₂ ++ cs₃)) out

variable {xs ls rs out : List α} {cs : List (Comparison α)}

theorem Merges.perm (h : Merges ls rs cs out) : out.Perm (ls ++ rs) := by
  induction h with
  | secondLeft rs => exact .refl rs
  | firstLeft ls => rw [List.append_nil]
  | takeSecond _ ih => exact (ih.cons _).trans List.perm_middle.symm
  | takeFirst _ ih => exact ih.cons _

/-- A sort only rearranges. -/
theorem Sorts.perm (h : Sorts xs cs out) : out.Perm xs := by
  induction h with
  | nil => exact .refl []
  | single x => exact .refl [x]
  | halves _ _ _ _ h ihl ihr => exact h.perm.trans (ihl.append ihr)

/-! ### Answers that follow an order -/

/-- The answers are those of the relation `R`. -/
def Follow (R : α → α → Prop) (cs : List (Comparison α)) : Prop :=
  ∀ c ∈ cs, c.isLess = true ↔ R c.left c.right

/-- Whether `a` may stand somewhere before `b`: it is not greater, and if it is not less either,
then it came before `b`. -/
def Placed (R came : α → α → Prop) (a b : α) : Prop := ¬ R b a ∧ (R a b ∨ came a b)

/-- What a strict weak order says of three elements of a list. -/
structure Graded (R : α → α → Prop) (xs : List α) : Prop where
  asymm : ∀ a ∈ xs, ∀ b ∈ xs, R a b → ¬ R b a
  connected : ∀ a ∈ xs, ∀ b ∈ xs, ∀ c ∈ xs, R a c → R a b ∨ R b c

variable {R came : α → α → Prop}

theorem graded_of_isStrictWeakOrder (h : IsStrictWeakOrder {a // a ∈ xs} fun a b => R a b) :
    Graded R xs where
  asymm a ha b hb hab hba := h.irrefl ⟨a, ha⟩ (h.trans ⟨a, ha⟩ ⟨b, hb⟩ ⟨a, ha⟩ hab hba)
  connected a ha b hb c hc hac := by
    by_contra hn
    obtain ⟨hab, hbc⟩ := not_or.mp hn
    have hba : ¬ R b a := fun hba => hbc (h.trans ⟨b, hb⟩ ⟨a, ha⟩ ⟨c, hc⟩ hba hac)
    have hcb : ¬ R c b := fun hcb => hab (h.trans ⟨a, ha⟩ ⟨c, hc⟩ ⟨b, hb⟩ hac hcb)
    exact (h.incomp_trans ⟨a, ha⟩ ⟨b, hb⟩ ⟨c, hc⟩ ⟨hab, hba⟩ ⟨hbc, hcb⟩).1 hac

/-- Nothing in a list so placed is less than its head. -/
theorem not_less_head {x : α} (hR : Graded R xs) (h : (x :: ls).Pairwise (Placed R came))
    (hx : x ∈ xs) {a : α} (ha : a ∈ x :: ls) : ¬ R a x := by
  rcases List.mem_cons.mp ha with rfl | ha
  · exact fun haa => hR.asymm a hx a hx haa haa
  · exact ((List.pairwise_cons.mp h).1 a ha).1

theorem Merges.placed (hR : Graded R xs) (h : Merges ls rs cs out) (hcs : Follow R cs)
    (hls : ∀ l ∈ ls, l ∈ xs) (hrs : ∀ r ∈ rs, r ∈ xs) (hcame : ∀ l ∈ ls, ∀ r ∈ rs, came l r)
    (hl : ls.Pairwise (Placed R came)) (hr : rs.Pairwise (Placed R came)) :
    out.Pairwise (Placed R came) := by
  induction h with
  | secondLeft => exact hr
  | firstLeft => exact hl
  | @takeSecond l r ls rs cs out h ih =>
    obtain ⟨hanswer, hcs⟩ := List.forall_mem_cons.mp hcs
    obtain ⟨hrfirst, hrrest⟩ := List.pairwise_cons.mp hr
    have hlx := hls l List.mem_cons_self
    have hrx := hrs r List.mem_cons_self
    have hless : R r l := hanswer.mp rfl
    refine .cons (fun a ha => ?_) (ih hcs hls (fun b hb => hrs b (List.mem_cons_of_mem r hb))
      (fun a ha b hb => hcame a ha b (List.mem_cons_of_mem r hb)) hl hrrest)
    rcases List.mem_append.mp (h.perm.mem_iff.mp ha) with ha | ha
    · -- the first list has nothing less than its head, and `r` is less than that
      have hnot : ¬ R a l := not_less_head hR hl hlx ha
      have hra : R r a := (hR.connected r hrx a (hls a ha) l hlx hless).resolve_right hnot
      exact ⟨hR.asymm r hrx a (hls a ha) hra, .inl hra⟩
    · exact hrfirst a ha
  | @takeFirst l r ls rs cs out h ih =>
    obtain ⟨hanswer, hcs⟩ := List.forall_mem_cons.mp hcs
    obtain ⟨hlfirst, hlrest⟩ := List.pairwise_cons.mp hl
    have hlx := hls l List.mem_cons_self
    have hrx := hrs r List.mem_cons_self
    have hnot : ¬ R r l := fun hrl => Bool.false_ne_true (hanswer.mpr hrl)
    refine .cons (fun a ha => ?_) (ih hcs (fun b hb => hls b (List.mem_cons_of_mem l hb)) hrs
      (fun a ha b hb => hcame a (List.mem_cons_of_mem l ha) b hb) hlrest hr)
    rcases List.mem_append.mp (h.perm.mem_iff.mp ha) with ha | ha
    · exact hlfirst a ha
    · -- the second list has nothing less than its head, and that is not less than `l`
      have hnot' : ¬ R a r := not_less_head hR hr hrx ha
      refine ⟨fun hal => ?_, .inr (hcame l List.mem_cons_self a ha)⟩
      exact (hR.connected a (hrs a ha) r hrx l hlx hal).elim hnot' hnot

/-- A sort whose answers follow a strict weak order places the elements by it, and equivalent ones
as they came. -/
theorem Sorts.placed {ys : List α} (hR : Graded R ys) (h : Sorts xs cs out) (hcs : Follow R cs)
    (hxs : ∀ x ∈ xs, x ∈ ys) (hcame : xs.Pairwise came) : out.Pairwise (Placed R came) := by
  induction h with
  | nil => exact .nil
  | single x => exact List.pairwise_singleton _ x
  | @halves front back left right cs₁ cs₂ cs₃ out _ _ hleft hright h ihl ihr =>
    rw [Follow, List.forall_mem_append, List.forall_mem_append] at hcs
    rw [List.forall_mem_append] at hxs
    obtain ⟨hf, hb, hcross⟩ := List.pairwise_append.mp hcame
    refine h.placed hR hcs.2.2 (fun l hl => hxs.1 l (hleft.perm.mem_iff.mp hl))
      (fun r hr => hxs.2 r (hright.perm.mem_iff.mp hr))
      (fun l hl r hr => hcross l (hleft.perm.mem_iff.mp hl) r (hright.perm.mem_iff.mp hr))
      (ihl hcs.1 hxs.1 hf) (ihr hcs.2.1 hxs.2 hb)

/-! ### Elements that are compared -/

/-- A merge of two lists that are not empty makes a comparison. -/
theorem Merges.exists_comparison (h : Merges ls rs cs out) (hl : ls ≠ []) (hr : rs ≠ []) :
    ∃ c ∈ cs, c.left ∈ rs ∧ c.right ∈ ls := by
  cases h with
  | secondLeft => exact absurd rfl hl
  | firstLeft => exact absurd rfl hr
  | takeSecond => exact ⟨_, List.mem_cons_self, List.mem_cons_self, List.mem_cons_self⟩
  | takeFirst => exact ⟨_, List.mem_cons_self, List.mem_cons_self, List.mem_cons_self⟩

theorem related_of_mem {C : α → α → Prop}
    (h : xs.length ≤ 1 ∨ ∀ a ∈ xs, ∀ b ∈ xs, C a b) {x : α} (hx : x ∈ xs) (hself : C x x) :
    ∀ a ∈ xs, C a x := by
  intro a ha
  rcases h with h | h
  · match xs, h with
    | [y], _ =>
      rw [List.mem_singleton.mp ha, ← List.mem_singleton.mp hx]
      exact hself
  · exact h a ha x hx

/-- If only elements related to each other are compared, and the relation is symmetric and
transitive, then all elements of a list of more than one are related. -/
theorem Sorts.related {C : α → α → Prop} (hsymm : ∀ {a b}, C a b → C b a)
    (htrans : ∀ {a b c}, C a b → C b c → C a c) (h : Sorts xs cs out)
    (hcs : ∀ c ∈ cs, C c.left c.right) : xs.length ≤ 1 ∨ ∀ a ∈ xs, ∀ b ∈ xs, C a b := by
  induction h with
  | nil => exact .inl (Nat.zero_le 1)
  | single x => exact .inl (le_refl 1)
  | @halves front back left right cs₁ cs₂ cs₃ out hfront hback hleft hright h ihl ihr =>
    rw [List.forall_mem_append, List.forall_mem_append] at hcs
    have hl : left ≠ [] := fun hnil => hfront (hnil ▸ hleft.perm).nil_eq.symm
    have hr : right ≠ [] := fun hnil => hback (hnil ▸ hright.perm).nil_eq.symm
    -- an element of the second half was compared with one of the first
    obtain ⟨c, hc, hcr, hcl⟩ := h.exists_comparison hl hr
    have hrel := hcs.2.2 c hc
    have hf := related_of_mem (ihl hcs.1) (hleft.perm.mem_iff.mp hcl) (htrans (hsymm hrel) hrel)
    have hb := related_of_mem (ihr hcs.2.1) (hright.perm.mem_iff.mp hcr)
      (htrans hrel (hsymm hrel))
    have hall : ∀ a ∈ front ++ back, C a c.right := by
      intro a ha
      rcases List.mem_append.mp ha with ha | ha
      · exact hf a ha
      · exact htrans (hb a ha) hrel
    exact .inr fun a ha b hb => htrans (hall a ha) (hsymm (hall b hb))

/-- A list of more than one element is not sorted without a comparison. -/
theorem Sorts.comparisons_ne_nil (h : Sorts xs cs out) (hlt : 1 < xs.length) : cs ≠ [] := by
  rintro rfl
  rcases h.related (C := fun _ _ => False) id (fun h _ => h) (List.forall_mem_nil _) with hle | hall
  · omega
  · have hmem := List.getElem_mem (Nat.lt_of_succ_lt hlt)
    exact hall _ hmem _ hmem

/-! ### Sorting in another guise -/

section Map

variable {m : Type → Type} [Monad m]

theorem merge_nil (less : α → α → m Bool) (ls : List α) : merge less ls [] = pure ls := by
  cases ls <;> simp [merge]

variable [LawfulMonad m]

/-- Merging the images of elements is merging the elements by the images. -/
theorem merge_map (g : β → α) (less : α → α → m Bool) (ls rs : List β) :
    merge less (ls.map g) (rs.map g) =
      List.map g <$> merge (fun a b => less (g a) (g b)) ls rs := by
  fun_induction merge (fun a b => less (g a) (g b)) ls rs with
  | case1 rs => simp [merge]
  | case2 ls => simp [merge_nil]
  | case3 l ls r rs ihr ihl =>
    rw [List.map_cons, List.map_cons, merge, map_bind]
    refine bind_congr fun first => ?_
    rw [List.map_cons] at ihr ihl
    cases first with
    | true => simp [ihr]
    | false => simp [ihl]

theorem mergeSort_map (g : β → α) (less : α → α → m Bool) (xs : List β) :
    mergeSort less (xs.map g) =
      List.map g <$> mergeSort (fun a b => less (g a) (g b)) xs := by
  fun_induction mergeSort (fun a b => less (g a) (g b)) xs with
  | case1 => simp [mergeSort]
  | case2 => simp [mergeSort]
  | case3 x y rest all half ihl ihr =>
    rw [List.map_cons, List.map_cons, mergeSort]
    simp only [← List.map_cons, List.length_map, ← List.map_take, ← List.map_drop]
    rw [ihl, ihr]
    simp [merge_map]

end Map

/-! ### Runs -/

variable {H : Host} {B : Behaviour H} {less : α → α → Program H Bool} {w w₁ w' : World H}
  {ys : List α} {cs' : List (Comparison α)}

/-- Comparisons between elements of `xs` that are made one after the other, from one world to
another. -/
inductive Makes (B : Behaviour H) (less : α → α → Program H Bool) (xs : List α) :
    World H → List (Comparison α) → World H → Prop
  | nil {w : World H} : Makes B less xs w [] w
  | cons {w w₁ w' : World H} {c : Comparison α} {cs : List (Comparison α)} (hl : c.left ∈ xs)
      (hr : c.right ∈ xs) (h : (less c.left c.right).Runs B w (.ok c.isLess) w₁)
      (hs : Makes B less xs w₁ cs w') : Makes B less xs w (c :: cs) w'

theorem Makes.append (h : Makes B less xs w cs w₁) (h' : Makes B less xs w₁ cs' w') :
    Makes B less xs w (cs ++ cs') w' := by
  induction h with
  | nil => exact h'
  | cons hl hr h _ ih => exact .cons hl hr h (ih h')

theorem Makes.mono (hsub : xs ⊆ ys) (h : Makes B less xs w cs w') : Makes B less ys w cs w' := by
  induction h with
  | nil => exact .nil
  | cons hl hr h _ ih => exact .cons (hsub hl) (hsub hr) h ih

/-- The two ends of a program that makes comparisons: it has a result, of which `Q` tells, or a
comparison has failed. -/
inductive Ends (B : Behaviour H) (less : α → α → Program H Bool) (xs : List α) (w : World H)
    (Q : List (Comparison α) → β → Prop) : Except Raised β → World H → Prop
  | result {cs : List (Comparison α)} {b : β} {w' : World H} (h : Makes B less xs w cs w')
      (hq : Q cs b) : Ends B less xs w Q (.ok b) w'
  | failure {cs : List (Comparison α)} {w₁ w' : World H} {a b : α} {e : Raised}
      (h : Makes B less xs w cs w₁) (ha : a ∈ xs) (hb : b ∈ xs)
      (hf : (less a b).Runs B w₁ (.error e) w') : Ends B less xs w Q (.error e) w'

variable {Q Q' : List (Comparison α) → β → Prop} {r : Except Raised β}

/-- Comparisons that were made before. -/
theorem Ends.after (hsub : xs ⊆ ys) (hm : Makes B less ys w cs w₁)
    (hQ : ∀ cs' b, Q cs' b → Q' (cs ++ cs') b) (h : Ends B less xs w₁ Q r w') :
    Ends B less ys w Q' r w' := by
  cases h with
  | result h hq => exact .result (hm.append (h.mono hsub)) (hQ _ _ hq)
  | failure h ha hb hf => exact .failure (hm.append (h.mono hsub)) (hsub ha) (hsub hb) hf

/-- A program that goes on with the result. -/
theorem Ends.bind {γ : Type} {p : Program H β} {f : β → Program H γ}
    {Q' : List (Comparison α) → γ → Prop} {r : Except Raised γ} (hsub : xs ⊆ ys)
    (h : (p.bind f).Runs B w r w')
    (hp : ∀ {r w'}, p.Runs B w r w' → Ends B less xs w Q r w')
    (hf : ∀ {cs b w₁}, Q cs b → Makes B less ys w cs w₁ → (f b).Runs B w₁ r w' →
      Ends B less ys w Q' r w') : Ends B less ys w Q' r w' := by
  rcases Program.runs_bind_iff.mp h with ⟨b, w₁, hb, hrest⟩ | ⟨e, rfl, hfail⟩
  · cases hp hb with
    | result hm hq => exact hf hq (hm.mono hsub) hrest
  · cases hp hfail with
    | failure hm ha hb hf => exact .failure (hm.mono hsub) (hsub ha) (hsub hb) hf

theorem subset_append_cons (ls rs : List α) (x : α) : ls ++ rs ⊆ ls ++ x :: rs :=
  ((List.sublist_cons_self x rs).append_left ls).subset

theorem merge_runs {r : Except Raised (List α)} (h : (merge less ls rs).Runs B w r w') :
    Ends B less (ls ++ rs) w (Merges ls rs) r w' := by
  fun_induction merge less ls rs generalizing w r w' with
  | case1 rs =>
    obtain ⟨rfl, rfl⟩ := Program.runs_done_iff.mp h
    exact .result .nil (.secondLeft rs)
  | case2 ls =>
    obtain ⟨rfl, rfl⟩ := Program.runs_done_iff.mp h
    exact .result .nil (.firstLeft ls)
  | case3 l ls x rs ihr ihl =>
    have hx : x ∈ l :: ls ++ x :: rs := List.mem_append_right _ List.mem_cons_self
    have hl : l ∈ l :: ls ++ x :: rs := List.mem_cons_self
    rcases Program.runs_bind_iff.mp h with ⟨first, w₁, hfirst, hrest⟩ | ⟨e, rfl, hfail⟩
    · have hmake := Makes.cons (c := ⟨x, l, first⟩) hx hl hfirst .nil
      refine Ends.after (List.Subset.refl _) hmake
        (Q := fun cs out => Merges (l :: ls) (x :: rs) (⟨x, l, first⟩ :: cs) out)
        (fun cs out hq => hq) ?_
      cases first with
      | true =>
        have hsub := subset_append_cons (l :: ls) rs x
        refine Ends.bind hsub hrest ihr fun {cs out w₂} hq hm hdone => ?_
        obtain ⟨rfl, rfl⟩ := Program.runs_done_iff.mp hdone
        exact .result hm (.takeSecond hq)
      | false =>
        have hsub : ls ++ x :: rs ⊆ l :: ls ++ x :: rs := List.subset_cons_self l _
        refine Ends.bind hsub hrest ihl fun {cs out w₂} hq hm hdone => ?_
        obtain ⟨rfl, rfl⟩ := Program.runs_done_iff.mp hdone
        exact .result hm (.takeFirst hq)
    · exact .failure .nil hx hl hfail

/-- The runs of a sort: it takes its course, or a comparison fails. -/
theorem mergeSort_runs {r : Except Raised (List α)} (h : (mergeSort less xs).Runs B w r w') :
    Ends B less xs w (Sorts xs) r w' := by
  fun_induction mergeSort less xs generalizing w r w' with
  | case1 =>
    obtain ⟨rfl, rfl⟩ := Program.runs_done_iff.mp h
    exact .result .nil .nil
  | case2 x =>
    obtain ⟨rfl, rfl⟩ := Program.runs_done_iff.mp h
    exact .result .nil (.single x)
  | case3 x y rest all half =>
    rename_i ihl ihr
    have hlength : all.length = rest.length + 2 := rfl
    have hfront : all.take half ≠ [] :=
      List.ne_nil_of_length_pos (by rw [List.length_take]; omega)
    have hback : all.drop half ≠ [] :=
      List.ne_nil_of_length_pos (by rw [List.length_drop]; omega)
    have hsplit : all.take half ++ all.drop half = x :: y :: rest := List.take_append_drop _ _
    rw [← hsplit]
    refine Ends.bind (List.subset_append_left _ _) h ihl fun {cs₁ left w₁} hleft hm₁ h₁ => ?_
    refine Ends.after (List.Subset.refl _) hm₁ (Q := fun cs out =>
      Sorts (all.take half ++ all.drop half) (cs₁ ++ cs) out) (fun _ _ hq => hq) ?_
    refine Ends.bind (List.subset_append_right _ _) h₁ ihr fun {cs₂ right w₂} hright hm₂ h₂ => ?_
    refine Ends.after ?_ hm₂ (fun cs₃ out hout => ?_) (merge_runs h₂)
    · intro a ha
      exact ((hleft.perm.append hright.perm).mem_iff).mp ha
    · exact .halves hfront hback hleft hright hout

/-! ### Coming to an end -/

theorem exists_runs_bind {γ : Type} {p : Program H β} {f : β → Program H γ}
    (hp : ∃ r w', p.Runs B w r w')
    (hf : ∀ b w₁, p.Runs B w (.ok b) w₁ → ∃ r w', (f b).Runs B w₁ r w') :
    ∃ r w', (p.bind f).Runs B w r w' := by
  obtain ⟨r, w₁, hr⟩ := hp
  cases r with
  | ok b =>
    obtain ⟨r, w', hrest⟩ := hf b w₁ hr
    exact ⟨r, w', hr.bind hrest⟩
  | error e => exact ⟨.error e, w₁, hr.bind_error⟩

/-- Comparisons between elements of `xs` lead from worlds of the kind `P` to such worlds only. -/
def Closed (B : Behaviour H) (less : α → α → Program H Bool) (xs : List α)
    (P : World H → Prop) : Prop :=
  ∀ w a b r w', P w → a ∈ xs → b ∈ xs → (less a b).Runs B w r w' → P w'

theorem Closed.mono {P : World H → Prop} (hsub : xs ⊆ ys) (h : Closed B less ys P) :
    Closed B less xs P :=
  fun w a b r w' hw ha hb hr => h w a b r w' hw (hsub ha) (hsub hb) hr

/-- In worlds of the kind `P` the comparisons between elements of `xs` come to an end. -/
def Finishing (B : Behaviour H) (less : α → α → Program H Bool) (xs : List α)
    (P : World H → Prop) : Prop :=
  ∀ w a b, P w → a ∈ xs → b ∈ xs → ∃ r w', (less a b).Runs B w r w'

variable {P : World H → Prop}

theorem Makes.closed (hP : Closed B less xs P) (h : Makes B less xs w cs w') (hw : P w) :
    P w' := by
  induction h with
  | nil => exact hw
  | cons hl hr h _ ih => exact ih (hP _ _ _ _ _ hw hl hr h)

/-- If the comparisons answer as a relation has it, then so do those that are made. -/
theorem Makes.follow {R : α → α → Prop} (hP : Closed B less xs P)
    (hR : ∀ {w a b isLess w'}, P w → a ∈ xs → b ∈ xs →
      (less a b).Runs B w (.ok isLess) w' → (isLess = true ↔ R a b))
    (h : Makes B less xs w cs w') (hw : P w) : Follow R cs := by
  induction h with
  | nil => exact List.forall_mem_nil _
  | cons hl hr h _ ih =>
    exact List.forall_mem_cons.mpr ⟨hR hw hl hr h, ih (hP _ _ _ _ _ hw hl hr h)⟩

theorem Ends.closed (hP : Closed B less xs P) (h : Ends B less xs w Q r w') (hw : P w) : P w' := by
  cases h with
  | result h _ => exact h.closed hP hw
  | failure h ha hb hf => exact hP _ _ _ _ _ (h.closed hP hw) ha hb hf

theorem exists_merge_runs (hP : Closed B less xs P) (hfin : Finishing B less xs P) (hw : P w)
    (hsub : ls ++ rs ⊆ xs) : ∃ r w', (merge less ls rs).Runs B w r w' := by
  fun_induction merge less ls rs generalizing w with
  | case1 rs => exact ⟨_, w, .done⟩
  | case2 ls => exact ⟨_, w, .done⟩
  | case3 l ls x rs ihr ihl =>
    have hx : x ∈ xs := hsub (List.mem_append_right _ List.mem_cons_self)
    have hl : l ∈ xs := hsub List.mem_cons_self
    refine exists_runs_bind (hfin w x l hw hx hl) fun first w₁ hfirst => ?_
    have hw₁ := hP _ _ _ _ _ hw hx hl hfirst
    cases first with
    | true =>
      have hsub' := subset_append_cons (l :: ls) rs x
      exact exists_runs_bind (ihr hw₁ (List.Subset.trans hsub' hsub)) fun out w₂ _ => ⟨_, w₂, .done⟩
    | false =>
      have hsub' : ls ++ x :: rs ⊆ l :: ls ++ x :: rs := List.subset_cons_self l _
      exact exists_runs_bind (ihl hw₁ (List.Subset.trans hsub' hsub)) fun out w₂ _ => ⟨_, w₂, .done⟩

theorem perm_of_mergeSort_runs (hP : Closed B less xs P) (hw : P w)
    (h : (mergeSort less xs).Runs B w (.ok out) w') : out.Perm xs ∧ P w' := by
  have hend := mergeSort_runs h
  refine ⟨?_, hend.closed hP hw⟩
  cases hend with
  | result _ hout => exact hout.perm

/-- A sort ends if its comparisons do, whatever they answer. -/
theorem exists_mergeSort_runs (hP : Closed B less ys P) (hfin : Finishing B less ys P) (hw : P w)
    (hsub : xs ⊆ ys) : ∃ r w', (mergeSort less xs).Runs B w r w' := by
  fun_induction mergeSort less xs generalizing w with
  | case1 => exact ⟨_, w, .done⟩
  | case2 x => exact ⟨_, w, .done⟩
  | case3 x y rest all half =>
    rename_i ihl ihr
    have hfront : all.take half ⊆ ys := List.Subset.trans (List.take_subset half all) hsub
    have hback : all.drop half ⊆ ys := List.Subset.trans (List.drop_subset half all) hsub
    refine exists_runs_bind (ihl hw hfront) fun left w₁ hleft => ?_
    obtain ⟨hleft, hw₁⟩ := perm_of_mergeSort_runs (hP.mono hfront) hw hleft
    refine exists_runs_bind (ihr hw₁ hback) fun right w₂ hright => ?_
    obtain ⟨hright, hw₂⟩ := perm_of_mergeSort_runs (hP.mono hback) hw₁ hright
    refine exists_merge_runs hP hfin hw₂ (List.append_subset.mpr ⟨?_, ?_⟩)
    · exact List.Subset.trans hleft.subset hfront
    · exact List.Subset.trans hright.subset hback

end Lua.Sort
