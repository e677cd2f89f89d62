/-
Coroutines that keep to themselves.

Coroutines that keep to themselves do not notice each other: each of them answers as if it were
resumed alone, and so they answer the same in whatever order they are resumed.  References are
numbered in order of creation, so the answers are the same up to the names of what was created.

* `World.Resumes` — coroutines are resumed one after the other;
* `World.Keeps` — a coroutine keeps to itself in a row of resumes;
* `Territories` — what each of some coroutines knows, and that they share nothing that changes;
* `World.Alike.of_kept` — what a coroutine does makes no difference to another one;
* `Together` — each of the coroutines alone, and all of them in one instance;
* `Together.alone_of_resumes`, `Together.resumes_of_alone` — a row of resumes is one for each of the
  coroutines, and such rows can be put together in any order;
* `Machine.Reachable.independent` — the answers and the states are the same in any order;
* `Machine.workshops` — two coroutines that create tables, functions and coroutines.

Design notes: that a coroutine keeps to itself is asked of it alone, from the instance before the
first resume on.  The order of resumes that is given and the new one are both compared with these
runs of single coroutines, which are the same for both orders.
-/
import Lua.Proofs.PrivateLibrary
import Lua.Proofs.Transfer

namespace Lua

variable {H : Host} {B : Behaviour H}

open Machine

/-! ### Rows of resumes -/

/-- What belongs to one coroutine. -/
def own {α : Type} (t : ThreadId) (l : List (ThreadId × α)) : List (ThreadId × α) :=
  l.filter fun x => x.1 = t

theorem own_cons_self {α : Type} (t : ThreadId) (a : α) (l : List (ThreadId × α)) :
    own t ((t, a) :: l) = (t, a) :: own t l :=
  List.filter_cons_of_pos (decide_eq_true rfl)

theorem own_cons_ne {α : Type} {t u : ThreadId} (h : u ≠ t) (a : α)
    (l : List (ThreadId × α)) : own t ((u, a) :: l) = own t l :=
  List.filter_cons_of_neg fun hu => h (of_decide_eq_true hu)

theorem mem_of_own_eq {α : Type} {l l' : List (ThreadId × α)} (h : ∀ t, own t l' = own t l)
    {x : ThreadId × α} (hx : x ∈ l') : x ∈ l := by
  have hown : x ∈ own x.1 l' := List.mem_filter.mpr ⟨hx, decide_eq_true rfl⟩
  rw [h] at hown
  exact List.mem_of_mem_filter hown

namespace World

/-- Coroutines are resumed one after the other, each with its arguments, and answer. -/
inductive Resumes (B : Behaviour H) : World H → List (ThreadId × List Value) →
    List (ThreadId × Except ResumeError (List Value)) → World H → Prop
  | nil {w} : Resumes B w [] [] w
  | cons {w w₁ w₂ t args r l rs} (hr : w.Resume B t args r w₁) (h : Resumes B w₁ l rs w₂) :
      Resumes B w ((t, args) :: l) ((t, r) :: rs) w₂

variable {w w₁ w₂ : World H} {l : List (ThreadId × List Value)}
  {rs rs' : List (ThreadId × Except ResumeError (List Value))}

theorem Resumes.unique (h : w.Resumes B l rs w₁) (h' : w.Resumes B l rs' w₂) :
    rs = rs' ∧ w₁ = w₂ := by
  induction h generalizing rs' with
  | nil =>
    cases h'
    exact ⟨rfl, rfl⟩
  | cons hr _ ih =>
    cases h' with
    | cons hr' h' =>
      obtain ⟨rfl, rfl⟩ := hr.unique hr'
      obtain ⟨rfl, rfl⟩ := ih h'
      exact ⟨rfl, rfl⟩

end World

/-! ### Coroutines apart -/

variable [NamedHost H] {P : Type} [Named P] {Z : Commons H P}

/-- A coroutine keeps to itself in a row of resumes. -/
def World.Keeps (B : Behaviour H) (Z : Commons H P) (t : ThreadId) (w : World H) :
    List (ThreadId × List Value) → Prop
  | [] => True
  | (u, args) :: l => (∀ m, w.During B u args m → m.Confined Z t B) ∧
      ∀ r w', w.Resume B u args r w' → w'.Keeps B Z t l

/-- What each coroutine of `T` knows.  All of them know the threads that wait or run, and they
have nothing else in common but what none of them changes. -/
structure Territories (Z : Commons H P) (T : Set ThreadId) (K : ThreadId → Set Reference)
    (w : World H) : Prop where
  chain : ∀ u, .thread u ∈ Z.references ↔ u ∈ w.chain
  idle : ∀ t ∈ T, t ∉ w.chain
  self : ∀ t ∈ T, .thread t ∈ K t
  apart : ∀ t ∈ T, ∀ u ∈ T, t ≠ u → K t ∩ K u ⊆ Z.references
  closed : ∀ t ∈ T, w.Alike Z t (.on (K t)) w

omit [NamedHost H] [Named P] in
theorem Entered.mono {t c : ThreadId} {R S : Renaming} {s : List (Boundary H)}
    (h : Entered Z t c R s) (hR : R ≤ S) : Entered Z t c S s :=
  { h with self := Named.mono hR h.self }

theorem Territories.entered {T : Set ThreadId} {K : ThreadId → Set Reference} {w : World H}
    {s : List (Boundary H)} {a : Option Owner} (h : Territories Z T K w)
    (hw : Chained ⟨w, s, a⟩) {t : ThreadId} (ht : t ∈ T) :
    Entered Z t (driven s) (.on (K t)) s where
  self := Renaming.mem_on_self.mpr (h.self t ht)
  own hn := h.idle t ht ((h.chain t).mp hn)
  caller := (h.chain _).mpr (hw.mem_chain_iff.mpr (driven_mem_chain hw.linked))
  outside u hu := hw.mem_chain_iff.mp ((h.chain u).mp hu)

/-- **What a coroutine does** makes no difference to another one. -/
theorem World.Alike.of_kept {v w w₁ : World H} {t u : ThreadId} {R S : Renaming}
    {s : List (Boundary H)} {a : Option Owner} (h : v.Alike Z u S w)
    (hk : w.Kept Z t (Z.own R) w₁) (hu : u ≠ t) (hd : ∀ b ∈ Z.own S, b ∉ Z.own R)
    (hs : ∀ x, .thread x ∈ Z.references → x ∈ Machine.chain s)
    (hw : Consistent ⟨w, s, a⟩) (hw₁ : Consistent ⟨w₁, s, a⟩) : v.Alike Z u S w₁ := by
  -- What it knows is not the other one's own.
  have hother : ∀ {x b}, b ∈ S x → b ∉ Z.own R := fun hb ho => hd _ ⟨⟨_, hb⟩, ho.2⟩ ho
  have hhas : ∀ {x b}, b ∈ S x → w.Contains b := fun hb => (h.contains _ _ hb).2
  have hrun : w₁.running = w.running := Eq.trans hw₁.chained.running hw.chained.running.symm
  refine ⟨fun x b hb => ⟨(h.contains x b hb).1, hk.contains b (hhas hb)⟩, ?_, fun i j hij => ?_,
    fun x y hxy => ?_, fun x y hxy hx => ?_, ?_, ?_, ?_⟩
  · exact {
      common := h.memory.common
      contains := fun x b hb =>
        ⟨(h.memory.contains x b hb).1, hk.memory.contains b (h.memory.contains x b hb).2⟩
      table := fun i j hij => by
        rw [hk.memory.table j (h.memory.contains _ _ hij).2 (hother hij)]
        exact h.memory.table i j hij
      walk := fun i j hij => by
        rw [hk.memory.walk j (h.memory.contains _ _ hij).2 (hother hij)]
        exact h.memory.walk i j hij
      metatables := by
        rw [hk.memory.metatables]
        exact h.memory.metatables
      globals := hk.memory.globals.trans h.memory.globals
      part := by
        rw [hk.memory.part u hu]
        exact h.memory.part }
  · rw [hk.functions j (hhas hij)]
    exact h.functions i j hij
  · refine Eq.trans ?_ (h.statuses x y hxy)
    by_cases hy : .thread y ∈ Z.references
    · -- The threads that all know wait or run, now as before.
      by_cases hd : y = driven s
      · subst hd
        exact Eq.trans hw₁.chained.top hw.chained.top.symm
      · exact Eq.trans (hw₁.chained.waiting y (hs y hy) hd)
          (hw.chained.waiting y (hs y hy) hd).symm
    · rw [hk.threads y (hhas hxy) (hother hxy) hy]
  · rw [hk.threads y (hhas hxy) (hother hxy) (h.memory.own hxy hx)]
    exact h.threads x y hxy hx
  · rw [hrun]
    exact h.running
  · exact Eq.trans (Eq.trans hw₁.counted.hostDepth hw.counted.hostDepth.symm) h.hostDepth
  · exact hk.limits.trans h.limits

/-! ### Each alone, and all in one instance -/

/-- The coroutines of `T` have come equally far: each of them alone, in an instance and under a
renaming of its own, and all of them in one instance `w`. -/
structure Together (Z : Commons H P) (T : Set ThreadId) (K : ThreadId → Set Reference)
    (s : List (Boundary H)) (o : Owner) (a : ThreadId → World H) (R : ThreadId → Renaming)
    (w : World H) : Prop where
  alike : ∀ t ∈ T, (a t).Alike Z t (R t) w
  known : ∀ t ∈ T, .on (K t) ≤ R t
  apart : ∀ t ∈ T, ∀ u ∈ T, t ≠ u → ∀ b ∈ Z.own (R t), b ∉ Z.own (R u)
  alone : ∀ t ∈ T, Consistent ⟨a t, s, some o⟩
  among : Consistent ⟨w, s, some o⟩

namespace Together

variable {T : Set ThreadId} {K : ThreadId → Set Reference} {s : List (Boundary H)} {o : Owner}
  {a : ThreadId → World H} {R : ThreadId → Renaming} {w w' : World H} {t : ThreadId}
  {args : List Value} {l : List (ThreadId × List Value)}
  {rs : List (ThreadId × Except ResumeError (List Value))}

/-- At first, all of them are in the same instance. -/
theorem start (hK : Territories Z T K w) (hw : Consistent ⟨w, s, some o⟩) :
    Together Z T K s o (fun _ => w) (fun t => .on (K t)) w where
  alike := hK.closed
  known _ _ := le_rfl
  apart t ht u hu hne b hb hb' := by
    obtain ⟨⟨x, hx⟩, hn⟩ := hb
    obtain ⟨⟨y, hy⟩, -⟩ := hb'
    exact hn (hK.apart t ht u hu hne ⟨(Renaming.mem_on.mp hx).2, (Renaming.mem_on.mp hy).2⟩)
  alone _ _ := hw
  among := hw

/-- One of the coroutines is resumed, alone and among the others. -/
theorem resume (h : Together Z T K s o a R w)
    (hr : ∀ t ∈ T, Entered Z t (driven s) (.on (K t)) s) (ht : t ∈ T)
    (hargs : Stands (.on (K t)) args args)
    (hc : ∀ m, (a t).During B t args m → m.Confined Z t B)
    (hres : (∃ r a₁, (a t).Resume B t args r a₁) ∨ ∃ r w₁, w.Resume B t args r w₁) :
    ∃ S r r' a₁ w₁, (a t).Resume B t args r a₁ ∧ w.Resume B t args r' w₁ ∧ R t ≤ S ∧
      Stands S r r' ∧
      Together Z T K s o (Function.update a t a₁) (Function.update R t S) w₁ := by
  have hcur : driven s = w.current := h.among.chained.current.symm
  have henter : Entered Z t w.current (R t) s := hcur ▸ (hr t ht).mono (h.known t ht)
  obtain ⟨S, r, r', a₁, w₁, ha₁, hw₁, htwin, hrr⟩ := (h.alike t ht).resume henter (h.alone t ht)
    h.among (Named.mono (h.known t ht) hargs) hc hres
  have hcons := hw₁.consistent h.among
  -- What is the coroutine's own now was so before, or it is new.
  have hnew : ∀ u ∈ T, t ≠ u → ∀ b ∈ Z.own S, b ∉ Z.own (R u) := by
    intro u hu hne b hb hb'
    obtain ⟨⟨x, hx⟩, hn⟩ := hb
    rcases htwin.fresh x b hx with hx | hfresh
    · exact h.apart t ht u hu hne b ⟨⟨x, hx⟩, hn⟩ hb'
    · obtain ⟨⟨y, hy⟩, -⟩ := hb'
      exact hfresh ((h.alike u hu).contains y b hy).2
  refine ⟨S, r, r', a₁, w₁, ha₁, hw₁, htwin.le, hrr, fun u hu => ?_, fun u hu => ?_,
    fun u hu v hv hne => ?_, fun u hu => ?_, hcons⟩
  · by_cases htu : u = t
    · subst htu
      rw [Function.update_self, Function.update_self]
      exact htwin.alike
    · rw [Function.update_of_ne htu, Function.update_of_ne htu]
      exact (h.alike u hu).of_kept htwin.kept htu (h.apart u hu t ht htu)
        (hr t ht).outside h.among hcons
  · by_cases htu : u = t
    · subst htu
      rw [Function.update_self]
      exact (h.known u hu).trans htwin.le
    · rw [Function.update_of_ne htu]
      exact h.known u hu
  · by_cases htu : u = t
    · subst htu
      rw [Function.update_self, Function.update_of_ne (Ne.symm hne)]
      exact hnew v hv hne
    · rw [Function.update_of_ne htu]
      by_cases htv : v = t
      · subst htv
        rw [Function.update_self]
        exact fun b hb hb' => hnew u hu (Ne.symm hne) b hb' hb
      · rw [Function.update_of_ne htv]
        exact h.apart u hu v hv hne
  · by_cases htu : u = t
    · subst htu
      rw [Function.update_self]
      exact ha₁.consistent (h.alone u hu)
    · rw [Function.update_of_ne htu]
      exact h.alone u hu

/-- **A row of resumes** is a row for each of the coroutines alone, with the same answers. -/
theorem alone_of_resumes (h : Together Z T K s o a R w)
    (hr : ∀ t ∈ T, Entered Z t (driven s) (.on (K t)) s)
    (hl : ∀ x ∈ l, x.1 ∈ T ∧ Stands (.on (K x.1)) x.2 x.2)
    (hk : ∀ t ∈ T, (a t).Keeps B Z t (own t l)) (hres : w.Resumes B l rs w') :
    ∃ a' S, Together Z T K s o a' S w' ∧ ∀ t ∈ T, ∃ as, R t ≤ S t ∧
      (a t).Resumes B (own t l) as (a' t) ∧ Stands (S t) as (own t rs) := by
  induction hres generalizing a R with
  | nil => exact ⟨a, R, h, fun t _ => ⟨[], le_rfl, .nil, .nil⟩⟩
  | @cons w w₁ w₂ t args r l rs hw _ ih =>
    obtain ⟨ht, hargs⟩ := hl _ List.mem_cons_self
    have hkt := hk t ht
    rw [own_cons_self] at hkt
    obtain ⟨S, r', r₁, a₁, w₁', ha₁, hw₁, hS, hrr, hnext⟩ :=
      h.resume hr ht hargs hkt.1 (.inr ⟨r, w₁, hw⟩)
    obtain ⟨rfl, rfl⟩ := hw₁.unique hw
    -- The others have not moved.
    have hkeeps : ∀ u ∈ T, (Function.update a t a₁ u).Keeps B Z u (own u l) := by
      intro u hu
      by_cases htu : u = t
      · subst htu
        rw [Function.update_self]
        exact hkt.2 r' a₁ ha₁
      · rw [Function.update_of_ne htu, ← own_cons_ne (Ne.symm htu) args l]
        exact hk u hu
    obtain ⟨a', U, hend, hall⟩ := ih hnext (fun x hx => hl x (List.mem_cons_of_mem _ hx)) hkeeps
    refine ⟨a', U, hend, fun u hu => ?_⟩
    obtain ⟨as, hU, has, hst⟩ := hall u hu
    by_cases htu : u = t
    · subst htu
      rw [Function.update_self] at hU has
      rw [own_cons_self, own_cons_self]
      refine ⟨(u, r') :: as, hS.trans hU, .cons ha₁ has, .cons ⟨?_, Named.mono hU hrr⟩ hst⟩
      exact hU _ _ (hS _ _ (h.known u hu _ _ (hr u hu).self))
    · rw [Function.update_of_ne htu] at hU has
      rw [own_cons_ne (Ne.symm htu), own_cons_ne (Ne.symm htu)]
      exact ⟨as, hU, has, hst⟩

/-- **Rows of single coroutines** can be put together in any order. -/
theorem resumes_of_alone (h : Together Z T K s o a R w)
    (hr : ∀ t ∈ T, Entered Z t (driven s) (.on (K t)) s)
    (hl : ∀ x ∈ l, x.1 ∈ T ∧ Stands (.on (K x.1)) x.2 x.2)
    (hk : ∀ t ∈ T, (a t).Keeps B Z t (own t l))
    (hres : ∀ t ∈ T, ∃ as a', (a t).Resumes B (own t l) as a') :
    ∃ rs w', w.Resumes B l rs w' := by
  induction l generalizing a R w with
  | nil => exact ⟨[], w, .nil⟩
  | cons x l ih =>
    obtain ⟨t, args⟩ := x
    obtain ⟨ht, hargs⟩ := hl _ List.mem_cons_self
    have hkt := hk t ht
    obtain ⟨as, a', hrow⟩ := hres t ht
    rw [own_cons_self] at hkt hrow
    cases hrow with
    | @cons _ a₂ _ _ _ r _ as hrt hrest =>
      obtain ⟨S, r', r₁, a₁, w₁, ha₁, hw₁, -, -, hnext⟩ :=
        h.resume hr ht hargs hkt.1 (.inl ⟨r, a₂, hrt⟩)
      obtain ⟨rfl, rfl⟩ := ha₁.unique hrt
      have hall : ∀ u ∈ T, (Function.update a t a₁ u).Keeps B Z u (own u l) ∧
          ∃ as a', (Function.update a t a₁ u).Resumes B (own u l) as a' := by
        intro u hu
        by_cases htu : u = t
        · subst htu
          rw [Function.update_self]
          exact ⟨hkt.2 _ _ ha₁, as, a', hrest⟩
        · rw [Function.update_of_ne htu, ← own_cons_ne (Ne.symm htu) args l]
          exact ⟨hk u hu, hres u hu⟩
      obtain ⟨rs, w', hrs⟩ := ih hnext (fun x hx => hl x (List.mem_cons_of_mem _ hx))
        (fun u hu => (hall u hu).1) fun u hu => (hall u hu).2
      exact ⟨(t, r₁) :: rs, w', .cons hw₁ hrs⟩

end Together

namespace Machine

/-! ### Main result -/

omit [NamedHost H] in
/-- Code of the host may run wherever the machine has come to. -/
theorem Reachable.exists_owner {m : Machine H} (hm : Reachable B m) :
    ∃ o, Consistent ⟨m.world, m.stack, some o⟩ := by
  have hx : Consistent ⟨m.world, m.stack, m.control.active⟩ := hm.consistent
  cases ha : m.control.active with
  | some o => exact ⟨o, ha ▸ hx⟩
  | none =>
    rw [ha] at hx
    refine ⟨.poll "", hx.chained.congr rfl (fun _ => rfl) fun _ => rfl,
      ⟨hx.counted.nonYieldable, fun t => ?_, ?_⟩, hx.shaped.active, hx.shaped.shape⟩
    · refine (hx.counted.nativeDepth t).trans ?_
      rw [openNatives_eq_add m.stack (some (.poll "")) t]
      show _ = _ + if t = driven m.stack then 0 else 0
      rw [ite_self]
      rfl
    · refine hx.counted.hostDepth.trans ?_
      rw [levels_eq_add m.stack (some (.poll ""))]
      rfl

/-- **Coroutines are independent**: when coroutines that keep to themselves, each on its own, are
resumed in another order, but each with the same arguments in turn, then all resumes come to an
end, and each coroutine has the same status, and has answered the same up to the names of what it
has created.  Answers in which nothing but known references occur are the same outright. -/
theorem Reachable.independent {m : Machine H} (hm : Reachable B m) {T : Set ThreadId}
    {K : ThreadId → Set Reference} (hK : Territories Z T K m.world)
    {l l' : List (ThreadId × List Value)}
    {rs : List (ThreadId × Except ResumeError (List Value))} {w : World H}
    (hargs : ∀ x ∈ l, x.1 ∈ T ∧ Stands (.on (K x.1)) x.2 x.2)
    (hkeeps : ∀ t ∈ T, m.world.Keeps B Z t (own t l)) (hl : ∀ t, own t l' = own t l)
    (h : m.world.Resumes B l rs w) :
    (∃ rs' w', m.world.Resumes B l' rs' w') ∧
      ∀ rs' w', m.world.Resumes B l' rs' w' → ∀ t ∈ T,
        (w'.thread t).status = (w.thread t).status ∧
        (∃ S, .on (K t) ≤ S ∧ Stands S (own t rs) (own t rs')) ∧
        (Stands (.on (K t)) (own t rs) (own t rs) → own t rs' = own t rs) := by
  obtain ⟨o, hx⟩ := hm.exists_owner
  have hr : ∀ t ∈ T, Entered Z t (driven m.stack) (.on (K t)) m.stack := fun t ht =>
    hK.entered hx.chained ht
  have hstart := Together.start hK hx
  have hargs' : ∀ x ∈ l', x.1 ∈ T ∧ Stands (.on (K x.1)) x.2 x.2 := fun x hx =>
    hargs x (mem_of_own_eq hl hx)
  have hkeeps' : ∀ t ∈ T, m.world.Keeps B Z t (own t l') := fun t ht => by
    rw [hl]
    exact hkeeps t ht
  obtain ⟨a, R, hend, hall⟩ := hstart.alone_of_resumes hr hargs hkeeps h
  refine ⟨hstart.resumes_of_alone hr hargs' hkeeps' fun t ht => ?_, fun rs' w' h' t ht => ?_⟩
  · obtain ⟨as, -, has, -⟩ := hall t ht
    rw [hl]
    exact ⟨as, a t, has⟩
  · obtain ⟨a', R', hend', hall'⟩ := hstart.alone_of_resumes hr hargs' hkeeps' h'
    obtain ⟨as, hR, has, hst⟩ := hall t ht
    obtain ⟨as', hR', has', hst'⟩ := hall' t ht
    -- The coroutine alone has answered, and come to an instance, once for both orders.
    rw [hl] at has'
    obtain ⟨rfl, ha⟩ := has.unique has'
    have hself : Stands (Renaming.on (K t)) t t := (hr t ht).self
    have hS : Renaming.on (K t) ≤ (R t).symm.trans (R' t) := Renaming.on_le_trans hR hR'
    have hst : Stands ((R t).symm.trans (R' t)) (own t rs) (own t rs') :=
      LawfulNamed.trans (LawfulNamed.symm hst) hst'
    refine ⟨?_, ⟨_, hS, hst⟩, fun hknown => ?_⟩
    · rw [(hend.alike t ht).statuses t t (Named.mono hR hself), ha,
        (hend'.alike t ht).statuses t t (Named.mono hR' hself)]
    · exact LawfulNamed.unique hst (Named.mono hS hknown)

end Machine

/-! ### Two workshops -/

/-- A host with one sequence, whose state is a list of values. -/
def Host.workshop : Host := ⟨Empty, Unit, List Value, Empty, Empty, Unit⟩

instance : NamedHost .workshop :=
  ⟨.plain _, .plain _, inferInstanceAs (Named (List Value)), .plain _, .plain _⟩

open Library in
/-- Creates a table and a coroutine, resumes the coroutine, which creates another table, and yields
what it has answered.  Then closes the coroutine and creates a function that resumes yet another
one. -/
def Program.workshop : List Value → List Value → Program .workshop (Step .workshop)
  | [], input => do
    let table ← Tables.pack input
    let created ← Coroutines.create [.function (.builtin (.table .pack))]
    let answer ← Coroutines.resume (created ++ table)
    pure (.yield answer (.host (table ++ created)))
  | table :: created, _ => do
    let closed ← Coroutines.close created
    let wrapped ← Coroutines.wrap [.function (.builtin (.table .pack))]
    pure (.return (table :: created ++ closed ++ wrapped))

/-- The standard libraries beside it. -/
def Behaviour.workshop : Behaviour .workshop := .standard {
  native := fun code => code.elim
  start := fun _ => []
  poll := Program.workshop
  recover := fun _ e => .fail (.traced e)
  advance := fun loop => loop.elim }

section

variable {Z : Commons .workshop P} {t : ThreadId} {m : Memory .workshop}

open Library Program in
/-- A workshop depends on nothing but what it has been given and has created, and changes nothing
but what it creates. -/
theorem Program.private_workshop {f : Frame .workshop} {made : List Value}
    (hf : f.activation = .host made) (i : Input) :
    PrivateAt Z t m (fun x : Frame .workshop × Input => Behaviour.workshop.goOn x.1 x.2)
      (f, i) := by
  have hpack : ∀ S : Renaming, Stands S [Value.function (.builtin (.table .pack))]
      [Value.function (.builtin (.table .pack))] := fun S =>
    .cons (Value.Stand.function (.builtin _)) .nil
  refine Behaviour.privateAt_goOn hf (fun R m' a' input input' hm ha hin => ?_)
    (fun R m' a' e e' _ ha he => ?_) i
  · cases ha with
    | @host _ made' hmade =>
      cases (show List.Forall₂ (Stands R) made made' from hmade) with
      | nil =>
        refine (Tables.private_pack input R m' input' hm hin).bind hm
          fun S n n' v v' hS hn hv => ?_
        refine (Coroutines.private_create _ S n' _ hn (hpack S)).bind hn
          fun T k k' c c' hT hk hc => ?_
        have hvT : Stands T v v' := Named.mono hT hv
        refine (Coroutines.private_resume _ T k' _ hk (List.rel_append hc hvT)).bind hk
          fun U j j' r r' hU hj hr => .done (.yield hr (.host ?_))
        exact Named.mono hU (List.rel_append hvT hc)
      | @cons table table' created created' htable hcreated =>
        refine (Coroutines.private_close _ R m' _ hm hcreated).bind hm
          fun S n n' v v' hS hn hv => ?_
        refine (Coroutines.private_wrap _ S n' _ hn (hpack S)).bind hn
          fun T k k' g g' hT hk hg => .done (.return ?_)
        have hmadeT : Stands T (table :: created) (table' :: created') :=
          Named.mono (hS.trans hT) (.cons htable hcreated)
        exact List.rel_append (List.rel_append hmadeT (Named.mono hT hv)) hg
  · cases ha
    exact .fail (Raised.Stand.traced he)

end

namespace Machine

/-- Creates two coroutines with a workshop as their body. -/
def twoWorkshops : Program .workshop (List Value) :=
  .define (.sequence (.host "workshop" ())) fun f =>
  .create (.function f) fun _ =>
  .create (.function f) fun _ => .done []

/-- The instance on which they are resumed. -/
def workshops : World .workshop := ((load (.initial {} ()) twoWorkshops).run .workshop 3).world

/-- The instance after the first resume of a workshop. -/
def workshopsAfter (t : ThreadId) : World .workshop :=
  ((load workshops (.resume t [.nat 7] Course.handOn)).run .workshop 11).world

/-- What both of them know: the main thread and the function. -/
def workshopCommons : Commons .workshop Unit where
  references := {.thread .main, .function 0}
  main := Set.mem_insert _ _
  part _ _ := ()

/-- What one of them knows. -/
def workshopOf (t : ThreadId) : Set Reference := insert (.thread t) workshopCommons.references

/-- What a workshop answers that is alone: the answer of its coroutine, and then two tables, the
coroutine, which has been closed, and a function. -/
def workshopAnswers (t : ThreadId) : List (ThreadId × Except ResumeError (List Value)) :=
  [(t, .ok [.boolean true, .table ⟨2⟩]),
    (t, .ok [.table ⟨1⟩, .thread ⟨3⟩, .boolean true, .function (.created 1)])]

theorem resume_workshops {t : ThreadId} (ht : t = ⟨1⟩ ∨ t = ⟨2⟩) :
    workshops.Resume .workshop t [.nat 7] (.ok [.boolean true, .table ⟨2⟩]) (workshopsAfter t) := by
  refine resume_of_isAnswered 11 ?_ ?_
  all_goals rcases ht with rfl | rfl <;> rfl

theorem resume_workshopsAfter {t : ThreadId} (ht : t = ⟨1⟩ ∨ t = ⟨2⟩) :
    ∃ w, (workshopsAfter t).Resume .workshop t []
      (.ok [.table ⟨1⟩, .thread ⟨3⟩, .boolean true, .function (.created 1)]) w := by
  refine ⟨_, resume_of_isAnswered 7 ?_ ?_⟩
  all_goals rcases ht with rfl | rfl <;> rfl

section

variable {t u : ThreadId} {w : World .workshop} {s : List (Boundary .workshop)} {o : Owner}

theorem confined_of_quiet {p : Program .workshop (o.Result .workshop)}
    (h : ∀ f args, ¬ Begins ⟨w, s, .host o p⟩ f args) :
    Confined workshopCommons t .workshop ⟨w, s, .host o p⟩ :=
  ⟨fun f args hb => absurd hb (h f args), fun _ _ _ _ _ _ hi => (nomatch hi),
    fun _ st _ _ => st.elim⟩

theorem confined_of_drive {b : Boundary .workshop} {i : Input}
    (h : ∀ f ∈ (w.thread b.thread).frames, ∃ made, f.activation = .host made) :
    Confined workshopCommons t .workshop ⟨w, b :: s, .drive i⟩ := by
  refine ⟨fun f args hb => (nomatch hb), fun b' s' input f below hs hi hf _ => ?_,
    fun _ st _ _ => st.elim⟩
  obtain ⟨rfl, rfl⟩ := List.cons.inj hs
  obtain ⟨made, hmade⟩ := h f (hf ▸ List.mem_cons_self)
  exact Program.private_workshop hmade input

/-- The bodies of the coroutines are workshops and `table.pack`. -/
theorem confined_of_resume {args : List Value}
    {rest : Except ResumeError (List Value) → Program .workshop (o.Result .workshop)}
    (hw : w.functions[0]? = some (.sequence (.host "workshop" ())))
    (h : ∀ f ∈ (w.thread u).body, f = .function (.created 0) ∨
      f = .function (.builtin (.table .pack))) :
    Confined workshopCommons t .workshop ⟨w, s, .host o (.resume u args rest)⟩ := by
  refine ⟨fun f as hb g vs hg => ?_, fun _ _ _ _ _ _ hi => (nomatch hi),
    fun _ st _ _ => st.elim⟩
  cases hb with
  | body hf =>
    rcases h f hf with rfl | rfl
    · cases hg
      intro c hc
      obtain rfl := Option.some.inj (hw.symm.trans hc)
      rintro R c' hc'
      cases hc' with
      | host name h => exact .host .nil
    · cases hg
      exact Library.Tables.private_pack _

end

theorem confined_workshops {t : ThreadId} (ht : t = ⟨1⟩ ∨ t = ⟨2⟩) {m : Machine .workshop}
    (hm : workshops.During .workshop t [.nat 7] m) : m.Confined workshopCommons t .workshop := by
  rcases ht with rfl | rfl
  all_goals
    rcases hm.of_step rfl with rfl | ⟨-, hm⟩
    · refine confined_of_resume rfl fun f hf => ?_
      cases hf
      exact .inl rfl
    rcases hm.of_step rfl with rfl | ⟨-, hm⟩
    · refine confined_of_drive fun f hf => ?_
      obtain rfl := List.mem_singleton.mp hf
      exact ⟨_, rfl⟩
    iterate 3
      rcases hm.of_step rfl with rfl | ⟨-, hm⟩
      · exact confined_of_quiet fun _ _ hb => nomatch hb
    rcases hm.of_step rfl with rfl | ⟨-, hm⟩
    · refine confined_of_resume rfl fun f hf => ?_
      cases hf
      exact .inr rfl
    iterate 3
      rcases hm.of_step rfl with rfl | ⟨-, hm⟩
      · exact confined_of_quiet fun _ _ hb => nomatch hb
    rcases hm.of_step rfl with rfl | ⟨-, hm⟩
    · exact confined_of_drive fun f hf => nomatch hf
    rcases hm.of_step rfl with rfl | ⟨hn, -⟩
    · exact confined_of_quiet fun _ _ hb => nomatch hb
    · exact absurd rfl hn

theorem confined_workshopsAfter {t : ThreadId} (ht : t = ⟨1⟩ ∨ t = ⟨2⟩) {m : Machine .workshop}
    (hm : (workshopsAfter t).During .workshop t [] m) :
    m.Confined workshopCommons t .workshop := by
  rcases ht with rfl | rfl
  all_goals
    rcases hm.of_step rfl with rfl | ⟨-, hm⟩
    · exact confined_of_resume rfl fun f hf => nomatch hf
    rcases hm.of_step rfl with rfl | ⟨-, hm⟩
    · refine confined_of_drive fun f hf => ?_
      obtain rfl := List.mem_singleton.mp hf
      exact ⟨_, rfl⟩
    iterate 4
      rcases hm.of_step rfl with rfl | ⟨-, hm⟩
      · exact confined_of_quiet fun _ _ hb => nomatch hb
    rcases hm.of_step rfl with rfl | ⟨hn, -⟩
    · exact confined_of_drive fun f hf => nomatch hf
    · exact absurd rfl hn

theorem territories_workshops :
    Territories workshopCommons {⟨1⟩, ⟨2⟩} workshopOf workshops where
  chain u := by
    refine ⟨fun h => ?_, fun h => ?_⟩
    · rcases h with h | h
      · rw [Reference.thread.inj h]
        exact List.mem_singleton_self _
      · cases h
    · rw [List.mem_singleton.mp h]
      exact workshopCommons.main
  idle t ht h := by
    obtain rfl := List.mem_singleton.mp h
    rcases ht with h | h <;> cases h
  self t _ := Set.mem_insert _ _
  apart t _ u _ hne b hb := by
    rcases hb.1 with rfl | hb₁
    · rcases hb.2 with h | hb₂
      · exact absurd (Reference.thread.inj h) hne
      · exact hb₂
    · exact hb₁
  closed t ht := by
    -- A reference stands for itself if it is known, and nothing else does.
    have hself : ∀ {a b}, b ∈ Renaming.on (workshopOf t) a → b = a ∧
        (a = .thread t ∨ a = .thread .main ∨ a = .function 0) := by
      intro a b hb
      obtain ⟨rfl, hk⟩ := Renaming.mem_on.mp hb
      exact ⟨rfl, hk⟩
    have hcommon : ∀ a ∈ workshopCommons.references, a ∈ Renaming.on (workshopOf t) a := fun a ha =>
      Renaming.mem_on_self.mpr (Set.mem_insert_of_mem _ ha)
    have hmain : workshops.Has .main := Nat.zero_lt_succ 2
    have hhas : workshops.Has t := by
      rcases ht with rfl | rfl
      · exact Nat.one_lt_succ_succ 1
      · exact Nat.lt_succ_self 2
    refine ⟨fun a b hb => ?_, ⟨hcommon, fun a b hb => ?_, fun i j hij => ?_, fun i j hij => ?_,
      ⟨.none, .none, .none, .none, .none⟩, rfl, rfl⟩, fun i j hij => ?_, fun u v huv => ?_,
      fun u v huv hu => ?_, .nil, rfl, rfl⟩
    · obtain ⟨rfl, rfl | rfl | rfl⟩ := hself hb
      · exact ⟨hhas, hhas⟩
      · exact ⟨hmain, hmain⟩
      · exact ⟨Nat.zero_lt_one, Nat.zero_lt_one⟩
    · obtain ⟨rfl, rfl | rfl | rfl⟩ := hself hb
      all_goals exact ⟨trivial, trivial⟩
    · obtain ⟨-, h | h | h⟩ := hself hij
      all_goals cases h
    · obtain ⟨-, h | h | h⟩ := hself hij
      all_goals cases h
    · obtain ⟨hj, h | h | h⟩ := hself hij
      · cases h
      · cases h
      · obtain rfl := Reference.function.inj h
        obtain rfl := Reference.function.inj hj
        exact .some (.sequence (.host "workshop" rfl))
    · rw [Reference.thread.inj (hself huv).1]
    · have hbody : Stands (Renaming.on (workshopOf t)) (some (Value.function (.created 0)))
          (some (Value.function (.created 0))) :=
        .some (.function (.created (hcommon _ (.inr rfl))))
      obtain ⟨hv, h | h | h⟩ := hself huv
      · obtain rfl := Reference.thread.inj h
        obtain rfl := Reference.thread.inj hv
        rcases ht with rfl | rfl
        all_goals exact ⟨rfl, .nil, hbody, .none, rfl, rfl⟩
      · exact absurd (h ▸ workshopCommons.main) hu
      · cases h

/-- Two resumes of each workshop, in turn. -/
def workshopsInTurn : List (ThreadId × List Value) :=
  [(⟨1⟩, [.nat 7]), (⟨2⟩, [.nat 7]), (⟨1⟩, []), (⟨2⟩, [])]

/-- The same resumes, but those of the second workshop come first. -/
def workshopsInARow : List (ThreadId × List Value) :=
  [(⟨2⟩, [.nat 7]), (⟨2⟩, []), (⟨1⟩, [.nat 7]), (⟨1⟩, [])]

theorem own_workshopsInTurn {t : ThreadId} (ht : t = ⟨1⟩ ∨ t = ⟨2⟩) :
    own t workshopsInTurn = [(t, [.nat 7]), (t, [])] := by
  rcases ht with rfl | rfl <;> rfl

theorem own_workshopsInARow (t : ThreadId) :
    own t workshopsInARow = own t workshopsInTurn := by
  by_cases h₁ : t = ⟨1⟩
  · subst h₁
    rfl
  · by_cases h₂ : t = ⟨2⟩
    · subst h₂
      rfl
    · simp only [workshopsInARow, workshopsInTurn, own_cons_ne (Ne.symm h₁),
        own_cons_ne (Ne.symm h₂)]

theorem keeps_workshops {t : ThreadId} (ht : t = ⟨1⟩ ∨ t = ⟨2⟩) :
    workshops.Keeps .workshop workshopCommons t (own t workshopsInTurn) := by
  rw [own_workshopsInTurn ht]
  refine ⟨fun m hm => confined_workshops ht hm, fun r w hr => ?_⟩
  obtain ⟨-, rfl⟩ := hr.unique (resume_workshops ht)
  exact ⟨fun m hm => confined_workshopsAfter ht hm, fun _ _ _ => trivial⟩

theorem arguments_workshops : ∀ x ∈ workshopsInTurn,
    x.1 ∈ ({⟨1⟩, ⟨2⟩} : Set ThreadId) ∧ Stands (.on (workshopOf x.1)) x.2 x.2 := by
  intro x hx
  simp only [workshopsInTurn, List.mem_cons, List.not_mem_nil, or_false] at hx
  rcases hx with rfl | rfl | rfl | rfl
  · exact ⟨.inl rfl, .cons (.number _) .nil⟩
  · exact ⟨.inr rfl, .cons (.number _) .nil⟩
  · exact ⟨.inl rfl, .nil⟩
  · exact ⟨.inr rfl, .nil⟩

theorem reachable_workshops :
    Reachable .workshop ((load (.initial {} ()) twoWorkshops).run .workshop 3) :=
  ⟨_, (Run.start (World.isFresh_initial {} ()) twoWorkshops).run 3⟩

theorem resumes_workshopsInTurn : ∃ rs w, workshops.Resumes .workshop workshopsInTurn rs w := by
  obtain ⟨o, hx⟩ := reachable_workshops.exists_owner
  refine (Together.start territories_workshops hx).resumes_of_alone
    (fun t ht => territories_workshops.entered hx.chained ht) arguments_workshops
    (fun t ht => keeps_workshops ht) fun t ht => ?_
  obtain ⟨w, hw⟩ := resume_workshopsAfter ht
  rw [own_workshopsInTurn ht]
  exact ⟨_, w, .cons (resume_workshops ht) (.cons hw .nil)⟩

/-- Two workshops, resumed in turn and one after the other: what they create has other numbers,
the answers stand for each other, and the statuses are the same. -/
theorem independent_workshops : ∃ rs w rs' w',
    workshops.Resumes .workshop workshopsInTurn rs w ∧
      workshops.Resumes .workshop workshopsInARow rs' w' ∧
      own ⟨2⟩ rs' = workshopAnswers ⟨2⟩ ∧
      ∀ t ∈ ({⟨1⟩, ⟨2⟩} : Set ThreadId), (w'.thread t).status = (w.thread t).status ∧
        ∃ S, Stands S (own t rs) (own t rs') := by
  obtain ⟨rs, w, h⟩ := resumes_workshopsInTurn
  obtain ⟨⟨rs', w', h'⟩, hall⟩ := Reachable.independent reachable_workshops
    territories_workshops arguments_workshops (fun t ht => keeps_workshops ht)
    own_workshopsInARow h
  refine ⟨rs, w, rs', w', h, h', ?_, fun t ht => ?_⟩
  · -- The second workshop is resumed first, and so it answers as if it were alone.
    cases h' with
    | cons hr h =>
      obtain ⟨rfl, rfl⟩ := hr.unique (resume_workshops (.inr rfl))
      cases h with
      | cons hr h =>
        obtain ⟨v, hv⟩ := resume_workshopsAfter (.inr rfl)
        obtain ⟨rfl, rfl⟩ := hr.unique hv
        cases h with
        | cons _ h =>
          cases h with
          | cons _ h =>
            cases h
            rfl
  · obtain ⟨hstatus, ⟨S, -, hS⟩, -⟩ := hall rs' w' h' t ht
    exact ⟨hstatus, S, hS⟩

end Machine

end Lua
