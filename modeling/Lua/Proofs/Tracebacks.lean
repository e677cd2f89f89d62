/-
Tracebacks.

`debug.traceback` walks from a thread along the resumers.  In every state of a run this walk is the
chain of resumes, or it ends at once:

* `Bytes.ofString_toText` — a string that is text has the bytes of its text, so the message stands
  in the report as it is;
* `World.Walk` — the threads from one on, each followed by its resumer, up to one that has none;
* `World.Walk.resumeChain` — the bounded loop makes the whole walk if its bound is large enough;
* `Chained.walk`, `Chained.length_chain_le` — the walk from the thread in control is the chain, and
  the bound is large enough for it;
* `Machine.Reachable.traceback_reports` — what is reported for the thread in control and for the
  threads outside the chain.

Design notes: the report is put down in bytes, as what the function gives is a string.
-/
import Lua.Library.Registry
import Lua.Proofs.EncodedTexts
import Lua.Proofs.ResumeChain
import Mathlib.Data.List.Perm.Subperm

namespace Lua

/-! ### The bytes of texts -/

namespace Utf8

/-- The bytes of a character are the encoded form of its code. -/
theorem utf8EncodeChar_eq (c : Char) : String.utf8EncodeChar c = encode c.toNat := by
  have hc : c.toNat ≤ 0x10FFFF := by
    have hvalid : c.toNat.isValidChar := c.valid
    unfold Nat.isValidChar at hvalid
    omega
  have hv : c.val.toNat = c.toNat := rfl
  rw [encode_eq_cons (Nat.le_trans hc (by decide)), leadByte]
  unfold String.utf8EncodeChar continuationCount
  simp only [hv]
  generalize c.toNat = code at hc
  -- the two definitions split the codes at the same places
  split_ifs <;> first | omega | skip
  all_goals
    simp only [leadMarker, continuationBytes, Nat.shiftRight_eq_div_pow, Nat.reduceMul,
      Nat.reducePow, List.cons.injEq, and_true]
    and_intros
  all_goals exact congrArg UInt8.ofNat (by omega)

theorem characters_encode {code : Nat} (h : Readable true code) (r : Bytes) :
    characters (encode code ++ r) = Char.ofNat code :: characters r := by
  rw [characters]
  split
  · rename_i code' n hread
    obtain ⟨rfl, rfl⟩ := Prod.mk.inj (Option.some.inj ((decode_encode h r).symm.trans hread))
    rw [List.drop_left]
  · rename_i hread
    rw [decode_encode h r] at hread
    cases hread

theorem isText_encode {code : Nat} (h : Readable true code) (r : Bytes) :
    isText (encode code ++ r) = isText r := by
  rw [isText]
  split
  · rename_i code' n hread
    obtain ⟨rfl, rfl⟩ := Prod.mk.inj (Option.some.inj ((decode_encode h r).symm.trans hread))
    rw [List.drop_left]
  · rename_i hread
    rw [decode_encode h r] at hread
    cases hread

/-- A string that cannot be read is a text only if it is empty. -/
theorem isText_of_decode_eq_none {rest : Bytes} (h : decode true rest = none) :
    isText rest = rest.isEmpty := by
  rw [isText]
  split
  · rename_i hread
    rw [h] at hread
    cases hread
  · rfl

theorem toNat_ofNat {code : Nat} (h : Readable true code) : (Char.ofNat code).toNat = code := by
  have hcharacter := (admits_strict_iff code).mp h.2
  have hvalid : code.isValidChar := by
    unfold Nat.isValidChar
    omega
  rw [Char.ofNat, dif_pos hvalid]
  rfl

/-- The characters of a text are written as the text. -/
theorem flatMap_characters {codes : List Nat} (hcodes : ∀ code ∈ codes, Readable true code) :
    (characters (text codes)).flatMap (fun c => encode c.toNat) = text codes := by
  induction codes with
  | nil =>
    rw [text_nil, characters]
    rfl
  | cons code codes ih =>
    obtain ⟨hcode, hcodes⟩ := List.forall_mem_cons.mp hcodes
    rw [text_cons, characters_encode hcode, List.flatMap_cons, toNat_ofNat hcode, ih hcodes]

/-- A string that is text consists of codes of characters. -/
theorem exists_eq_text {s : Bytes} (h : isText s = true) :
    ∃ codes, s = text codes ∧ ∀ code ∈ codes, Readable true code := by
  obtain ⟨codes, rest, rfl, hcodes, hrest⟩ := exists_text true s
  -- what can be read is skipped, and nothing may follow it
  have hskip : isText (text codes ++ rest) = isText rest := by
    clear h
    induction codes with
    | nil => rfl
    | cons code codes ih =>
      obtain ⟨hcode, hcodes⟩ := List.forall_mem_cons.mp hcodes
      rw [text_cons, List.append_assoc, isText_encode hcode, ih hcodes]
  rw [hskip, isText_of_decode_eq_none hrest, List.isEmpty_iff] at h
  exact ⟨codes, by rw [h, List.append_nil], hcodes⟩

end Utf8

namespace Bytes

theorem ofString_append (a b : String) : ofString (a ++ b) = ofString a ++ ofString b := by
  simp only [ofString, String.toUTF8_eq_toByteArray, String.toByteArray_append,
    ByteArray.toList_data_append]

theorem ofString_join (lines : List String) :
    ofString (String.join lines) = lines.flatMap ofString := by
  induction lines with
  | nil => rfl
  | cons line lines ih => rw [String.join_cons, ofString_append, ih, List.flatMap_cons]

theorem ofString_ofList (cs : List Char) :
    ofString (String.ofList cs) = cs.flatMap fun c => Utf8.encode c.toNat := by
  rw [ofString, String.toUTF8_eq_toByteArray, String.toByteArray_ofList, List.utf8Encode,
    List.toList_data_toByteArray]
  exact congrArg (cs.flatMap ·) (funext Utf8.utf8EncodeChar_eq)

/-- **A text** in a string is the whole string. -/
theorem ofString_toText {s : Bytes} (h : Utf8.isText s = true) : ofString (Utf8.toText s) = s := by
  obtain ⟨codes, rfl, hcodes⟩ := Utf8.exists_eq_text h
  rw [Utf8.toText, ofString_ofList, Utf8.flatMap_characters hcodes]

end Bytes

variable {H : Host}

/-! ### Walks along the resumers -/

namespace World

/-- The threads from one on, each followed by its resumer, up to one that has none. -/
inductive Walk (w : World H) : ThreadId → List ThreadId → Prop
  | last {t} (h : (w.thread t).resumer = none) : Walk w t [t]
  | next {t r ts} (h : (w.thread t).resumer = some r) (hr : Walk w r ts) : Walk w t (t :: ts)

variable {w : World H} {t : ThreadId} {ts : List ThreadId}

/-- With a bound that is large enough, the loop makes the whole walk. -/
theorem Walk.resumeChain (h : w.Walk t ts) {fuel : Nat} (hfuel : ts.length ≤ fuel) :
    w.resumeChain fuel t = ts := by
  induction h generalizing fuel with
  | last h =>
    rw [List.length_singleton] at hfuel
    obtain ⟨fuel, rfl⟩ : ∃ n, fuel = n + 1 := ⟨fuel - 1, by omega⟩
    rw [World.resumeChain, h]
  | next h hr ih =>
    rw [List.length_cons] at hfuel
    obtain ⟨fuel, rfl⟩ : ∃ n, fuel = n + 1 := ⟨fuel - 1, by omega⟩
    rw [World.resumeChain, h]
    exact congrArg (_ :: ·) (ih (Nat.le_of_succ_le_succ hfuel))

/-- A row of threads, each resumed by the next one and the last one by none, is a walk. -/
theorem walk_of_isChain (hlink : (t :: ts).IsChain fun a b => (w.thread a).resumer = some b)
    (hend : (w.thread ((t :: ts).getLast (List.cons_ne_nil t ts))).resumer = none) :
    w.Walk t (t :: ts) := by
  induction ts generalizing t with
  | nil => exact .last hend
  | cons r ts ih =>
    obtain ⟨h, hlink⟩ := List.isChain_cons_cons.mp hlink
    exact .next h (ih hlink hend)

end World

namespace Chained

open Machine

variable {w : World H} {s : List (Boundary H)} {a : Option Owner} {t : ThreadId}

/-- From the thread in control the walk visits the chain. -/
theorem walk (h : Chained ⟨w, s, a⟩) : w.Walk w.current w.chain.reverse := by
  have hnodup : (chain s).Nodup := nodup_chain h.linked
  have hlink : ∀ t, (w.thread t).resumer = resumerIn (chain s) t := h.resumer
  have hlinked : (chain s).IsChain fun a b => (w.thread a).resumer = some b :=
    (isChain_resumerIn hnodup).imp fun a b hab => (hlink a).trans hab
  obtain ⟨rest, hrest⟩ : ∃ rest, chain s = w.current :: rest := by
    rw [h.current]
    exact List.head?_eq_some_iff.mp (head?_chain h.linked)
  have hlast : ∀ hne, (chain s).getLast hne = .main := fun _ => List.getLast_append_singleton _
  rw [h.chain_eq_reverse, List.reverse_reverse]
  rw [hrest] at hlinked hlast ⊢
  refine World.walk_of_isChain hlinked ?_
  rw [hlast, hlink]
  exact resumerIn_last hnodup

/-- A thread outside the chain has no resumer. -/
theorem walk_outside (h : Chained ⟨w, s, a⟩) (ht : t ∉ w.chain) : w.Walk t [t] :=
  .last ((h.resumer t).trans (resumerIn_of_not_mem fun hc => ht (h.mem_chain_iff.mpr hc)))

/-- The chain has no more threads than there are. -/
theorem length_chain_le (h : Chained ⟨w, s, a⟩) : w.chain.reverse.length ≤ w.threads.size := by
  rw [h.chain_eq_reverse, List.reverse_reverse, ← List.length_map ThreadId.index]
  -- the indices of its threads are all different, and each is that of an existing thread
  have hinj : ((chain s).map ThreadId.index).Nodup :=
    (nodup_chain h.linked).map fun t u htu => by
      cases t
      cases u
      exact congrArg ThreadId.mk htu
  refine (hinj.subperm fun i hi => ?_).length_le.trans (List.length_range).le
  obtain ⟨t, ht, rfl⟩ := List.mem_map.mp hi
  exact List.mem_range.mpr (h.has ht)

end Chained

/-! ### The report -/

namespace Library.Debugging

/-- The lines for one thread: its frames, innermost first, and the thread itself unless it is the
main one. -/
def threadLines (w : World H) (t : ThreadId) : List String :=
  (w.thread t).frames.map (fun f => s!"[native]: in function '{f.name}'") ++
    (if t = .main then [] else [s!"[coroutine {t.number}]"])

/-- A message and the lines for threads in a row. -/
def tracebackOf (w : World H) (message : Bytes) (ts : List ThreadId) : Bytes :=
  message ++ Bytes.ofString "\nstack traceback:" ++
    (ts.flatMap (threadLines w)).flatMap fun line => Bytes.ofString ("\n\t" ++ line)

theorem text_threadTrace (w : World H) (t : ThreadId) :
    (threadTrace w 0 t).map TraceEntry.text = threadLines w t := by
  rw [threadTrace, List.drop_zero, Thread.frameNames, threadLines, List.map_append, List.map_map,
    List.map_map]
  split <;> rfl

theorem text_stackTrace {w : World H} {t : ThreadId} {level : Nat} {ts : List ThreadId}
    (hwalk : w.Walk t ts) (hlength : ts.length ≤ w.threads.size) (hlevel : level ≤ 1) :
    (stackTrace w t level).map TraceEntry.text = ts.flatMap (threadLines w) := by
  have hall : stackTrace w t level = ts.flatMap (threadTrace w 0) := by
    rw [stackTrace, hwalk.resumeChain hlength, Nat.sub_eq_zero_of_le hlevel]
    cases ts <;> rfl
  rw [hall, List.map_flatMap]
  exact congrArg (ts.flatMap ·) (funext (text_threadTrace w))

/-- The innermost frame is the level if none is given, and it is level 1. -/
theorem exists_levelArgument (s : Bytes) (moved : Nat) {level : List Value}
    (h : level ∈ [[], [.int 1]]) :
    ∃ n ≤ 1, levelArgument (.string s :: level) moved = .ok n := by
  simp only [List.mem_cons, List.not_mem_nil, or_false] at h
  obtain rfl | rfl := h
  · exact ⟨1 - moved, Nat.sub_le 1 moved, rfl⟩
  · exact ⟨1, Nat.le_refl 1, rfl⟩

/-- The lines of a walk behind a message that is text. -/
theorem ofText_stackTrace {w : World H} {s : Bytes} {t : ThreadId} {level : Nat}
    {ts : List ThreadId} (hs : Utf8.isText s = true) (hwalk : w.Walk t ts)
    (hlength : ts.length ≤ w.threads.size) (hlevel : level ≤ 1) :
    Value.ofText (Value.text (.string s) ++ "\n" ++ "stack traceback:" ++
      String.join ((stackTrace w t level).map fun entry => "\n\t" ++ entry.text)) =
      .string (tracebackOf w s ts) := by
  have hlines : (stackTrace w t level).map (fun entry => "\n\t" ++ entry.text) =
      (ts.flatMap (threadLines w)).map ("\n\t" ++ ·) := by
    rw [← text_stackTrace hwalk hlength hlevel, List.map_map]
    rfl
  have hhead : Bytes.ofString "\n" ++ Bytes.ofString "stack traceback:" =
      Bytes.ofString "\nstack traceback:" := (Bytes.ofString_append _ _).symm
  rw [Value.ofText, Value.text, hlines, Bytes.ofString_append, Bytes.ofString_append,
    Bytes.ofString_append, Bytes.ofString_toText hs, Bytes.ofString_join, List.flatMap_map,
    List.append_assoc s, hhead]
  rfl

/-- What the function gives for a message that is text. -/
theorem traceback_runs (host : HostCode H) {w : World H} {args level : List Value} {s : Bytes}
    {t : ThreadId} {moved : Nat} {ts : List ThreadId} (hs : Utf8.isText s = true)
    (hargs : threadArgument w args = (t, .string s :: level, moved))
    (hlevel : level ∈ [[], [.int 1]]) (hwalk : w.Walk t ts) (hlength : ts.length ≤ w.threads.size) :
    ((Behaviour.standard host).builtin (.debug .traceback) args).Runs (.standard host) w
      (.ok [.string (tracebackOf w s ts)]) w := by
  obtain ⟨n, hn, hlevel⟩ := exists_levelArgument s moved hlevel
  show (traceback args).Runs (.standard host) w _ w
  refine .read ?_
  simp only [Program.bind, hargs]
  show ((liftM (levelArgument (.string s :: level) moved) : Program H Nat) >>= _).Runs _ w _ w
  rw [Program.bind_of_ok hlevel, ofText_stackTrace hs hwalk hlength hn]
  exact .done

end Library.Debugging

/-! ### Main result -/

namespace Machine

open Library.Debugging

/-- **Tracebacks.**  In every state of every run, a traceback of the thread in control has the
message and the lines of the threads of the chain of resumes, from that thread on, each once, up to
the main thread.  That of a thread outside the chain has the lines of this thread only. -/
theorem Reachable.traceback_reports {host : HostCode H} {m : Machine H}
    (hm : Reachable (.standard host) m) {s : Bytes} (hs : Utf8.isText s = true) :
    let B := Behaviour.standard host
    let traceback := fun args => B.builtin (.debug .traceback) args
    let w := m.world
    let running := w.chain.reverse
    (w.Walk w.current running ∧ running.Nodup ∧ running.getLast? = some .main) ∧
    (∀ level ∈ [[], [.int 1]],
      (traceback (.string s :: level)).Runs B w (.ok [.string (tracebackOf w s running)]) w ∧
      (traceback (.thread w.current :: .string s :: level)).Runs B w
        (.ok [.string (tracebackOf w s running)]) w) ∧
    ∀ t ∉ w.chain, ∀ level ∈ [[], [.int 1]],
      (traceback (.thread t :: .string s :: level)).Runs B w
        (.ok [.string (tracebackOf w s [t])]) w := by
  intro B traceback w running
  have h : Chained ⟨m.world, m.stack, m.control.active⟩ := hm.chained
  have hlength : running.length ≤ w.threads.size := h.length_chain_le
  have hsome : 1 ≤ w.threads.size :=
    Nat.le_trans (by rw [List.length_reverse]; exact Nat.succ_pos _) hlength
  have hnodup : running.Nodup := by
    show w.chain.reverse.Nodup
    rw [h.chain_eq_reverse, List.reverse_reverse]
    exact nodup_chain h.linked
  have hlast : running.getLast? = some .main := by
    rw [List.getLast?_reverse]
    rfl
  exact ⟨⟨h.walk, hnodup, hlast⟩,
    fun level hlevel => ⟨traceback_runs host hs rfl hlevel h.walk hlength,
      traceback_runs host hs rfl hlevel h.walk hlength⟩,
    fun t ht level hlevel => traceback_runs host hs rfl hlevel (h.walk_outside ht) hsome⟩

/-- Asks for a traceback in a protected call in a coroutine, which is resumed in a protected call.
Another coroutine is not resumed. -/
def protectedTraceback : Program H (List Value) :=
  .define (.sequence (.protectedCall false)) fun pcall =>
  .create (.function pcall) fun t =>
  .create (.function pcall) fun _ =>
  match t with
  | .ok t =>
    let resume := Value.function (.builtin (.coroutine .resume))
    let traceback := Value.function (.builtin (.debug .traceback))
    .call (.function pcall) [resume, .thread t, traceback, .ofText "message"] fun _ => .done []
  | .error _ => .done []

/-- While the inner protected call asks, the chain has two threads with a frame each. -/
theorem traceback_reports_protectedTraceback : ∃ m : Machine .bare, Reachable .bare m ∧
    Utf8.isText (Bytes.ofString "message") = true ∧ m.world.chain = [.main, ⟨1⟩] ∧
    (Behaviour.bare.builtin (.debug .traceback) [.ofText "message"]).Runs .bare m.world
      (.ok [.ofText ("message\nstack traceback:\n\t[native]: in function 'pcall'" ++
        "\n\t[coroutine 2]\n\t[native]: in function 'pcall'")]) m.world ∧
    (Behaviour.bare.builtin (.debug .traceback) [.thread ⟨2⟩, .ofText "message", .int 1]).Runs .bare
      m.world (.ok [.ofText "message\nstack traceback:\n\t[coroutine 3]"]) m.world := by
  have hm : Reachable (.standard .bare) ((load .bare protectedTraceback).run .bare 10) :=
    reachable_bare protectedTraceback 10
  have hs : Utf8.isText (Bytes.ofString "message") = true := by decide +kernel
  obtain ⟨-, hrunning, houtside⟩ := hm.traceback_reports hs
  exact ⟨_, hm, hs, rfl, (hrunning [] (by decide)).1, houtside ⟨2⟩ (by decide) [.int 1] (by decide)⟩

end Machine

end Lua
