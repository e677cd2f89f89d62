/-
Yielding is transparent.

A coroutine that yields and is resumed again computes what it would have computed had the yield
been a call of a function that notes its arguments and returns the next inputs:

* `Mirror.forward`, `Mirror.catch_up` — each of the two runs follows the other;
* `Mirror.start` — they start with the same call;
* `Machine.Reachable.yield_transparent` — so a row of resumes yields what one resume records,
  and ends as that one ends.

Design notes: the run in one piece may be between two states that belong to the other run, so
what is proved of its states is proved by letting it catch up first.
-/
import Lua.Proofs.Mirror

namespace Lua

variable {H : Host}

open Relation (ReflTransGen TransGen)
open Machine

/-! ### Whole runs -/

namespace Mirror

variable {host : HostCode H} {replies : Nat → List Value} {t c : ThreadId} {h : Nat}
  {p p' : List (List Value) × Course H} {q z : Course H.recording}

theorem moves_of_records (hz : ReflTransGen (Course.Records host replies t c) q z) :
    ReflTransGen (Course.Moves ((Behaviour.standard host).recording replies) t c) q z :=
  hz.lift id fun _ _ h => h.1

/-- The log only grows. -/
theorem prefix_of_records (hz : ReflTransGen (Course.Records host replies t c) q z) :
    q.world.log <+: z.world.log := by
  induction hz with
  | refl => exact List.prefix_rfl
  | tail _ h ih => exact ih.trans h.2

/-- The run in one piece follows the run that is cut into resumes. -/
theorem forward {args : List Value} (hm : Mirror replies t c h p q)
    (hplain : ∀ z, ReflTransGen (Course.Moves ((Behaviour.standard host).recording replies) t c)
      q z → z.control.Plain)
    (hp : ReflTransGen (Course.Turns (.standard host) t c (inputsOf args replies)) p p') :
    ∃ q', ReflTransGen (Course.Records host replies t c) q q' ∧ Mirror replies t c h p' q' := by
  induction hp with
  | refl => exact ⟨q, .refl, hm⟩
  | tail _ hturn ih =>
    obtain ⟨q', hq, hm'⟩ := ih
    rcases hm'.turn args (hplain q' (moves_of_records hq)) with
      ⟨p₁, hturn', q₁, hq', hm₁⟩ | ⟨w, r, he, hd, -⟩
    · rw [hturn.unique hturn']
      exact ⟨q₁, hq.trans hq'.to_reflTransGen, hm₁⟩
    · exact absurd hturn (he.not_turns hd)

/-- Wherever the run in one piece is, it gets to a state that belongs to one of the run that is
cut into resumes. -/
theorem catch_up (hm : Mirror replies t c h p q) (args : List Value)
    (hplain : ∀ z, ReflTransGen (Course.Moves ((Behaviour.standard host).recording replies) t c)
      q z → z.control.Plain)
    (hz : ReflTransGen (Course.Moves ((Behaviour.standard host).recording replies) t c) q z) :
    ∃ p' q', ReflTransGen (Course.Records host replies t c) z q' ∧
      Mirror replies t c h p' q' ∧
      ReflTransGen (Course.Turns (.standard host) t c (inputsOf args replies)) p p' := by
  induction hz with
  | refl => exact ⟨p, q, .refl, hm, .refl⟩
  | @tail y z hy hmove ih =>
    obtain ⟨p', q', hyq, hm', hp⟩ := ih
    -- Either `y` belongs to the other run, which makes a turn, or it is still on its way.
    rcases ReflTransGen.cases_head hyq with rfl | ⟨z', hz', hzq⟩
    · rcases hm'.turn args (hplain _ hy) with ⟨p₁, hturn, q₁, hq₁, hm₁⟩ | ⟨w, r, -, -, he⟩
      · obtain ⟨z', hz', hzq⟩ := TransGen.head'_iff.mp hq₁
        obtain rfl := hmove.unique hz'.1
        exact ⟨p₁, q₁, hzq, hm₁, hp.tail hturn⟩
      · exact absurd hmove he.not_moves
    · obtain rfl := hmove.unique hz'.1
      exact ⟨p', q', hzq, hm', hp⟩

/-- The course of turns never gets stuck. -/
theorem lively {x : Course H} (hm : Mirror replies t c h ([], x) q) (args : List Value)
    (hplain : ∀ z, ReflTransGen (Course.Moves ((Behaviour.standard host).recording replies) t c)
      q z → z.control.Plain) :
    Course.Lively (.standard host) t c (inputsOf args replies) x := by
  intro p hp
  obtain ⟨q', hq, hm'⟩ := hm.forward hplain hp
  rcases hm'.turn args (hplain q' (moves_of_records hq)) with ⟨p₁, hturn, -⟩ | ⟨w, r, he, hd, -⟩
  · exact .inl ⟨p₁, hturn⟩
  · exact .inr ⟨w, r, he, hd⟩

/-- The run in one piece never gets stuck. -/
theorem progress (hm : Mirror replies t c h p q)
    (hplain : ∀ z, ReflTransGen (Course.Moves ((Behaviour.standard host).recording replies) t c)
      q z → z.control.Plain)
    (hz : ReflTransGen (Course.Moves ((Behaviour.standard host).recording replies) t c) q z) :
    (∃ z', Course.Moves ((Behaviour.standard host).recording replies) t c z z') ∨
      ∃ w r, Course.Ends ((Behaviour.standard host).recording replies) t c z w r := by
  obtain ⟨p', q', hzq, hm', -⟩ := hm.catch_up [] hplain hz
  rcases ReflTransGen.cases_head hzq with rfl | ⟨z', hz', -⟩
  · rcases hm'.turn [] (hplain _ hz) with ⟨-, -, q₁, hq₁, -⟩ | ⟨w, r, -, -, he⟩
    · obtain ⟨z', hz', -⟩ := TransGen.head'_iff.mp hq₁
      exact .inl ⟨z', hz'.1⟩
    · exact .inr ⟨_, r, he⟩
  · exact .inl ⟨z', hz'.1⟩

end Mirror

/-- A coroutine has been resumed. -/
theorem Within.start {w : World H} {t : ThreadId} (hmain : t ≠ .main)
    (hc : (w.thread w.current).status = .running) (ht : (w.thread t).status = .suspended)
    (hy : (w.thread t).nonYieldable = 0) (hresumes : w.running.length < w.limits.maxResumeDepth)
    (hdepth : w.hostDepth + 1 < w.limits.maxHostDepth) :
    Within t w.current (w.hostDepth + 1) 0 ((w.entered t).dropBody t) := by
  have hlook := World.thread_entered hc ht
  have hne : w.current ≠ t := World.ne_of_status hc ht (by decide)
  have hkeep : ∀ {α : Type} (view : Thread H → α) (u : ThreadId),
      (∀ s : Thread H, view { s with body := none } = view s) →
      view (((w.entered t).dropBody t).thread u) = view ((w.entered t).thread u) :=
    fun view u h => World.keep_modifyThread view u h
  refine ⟨hmain, ?_, ?_, ?_, ?_, ?_, ⟨w.running, rfl, rfl, hresumes⟩, rfl,
    Nat.succ_pos _, hdepth⟩
  · rw [hkeep Thread.status t fun _ => rfl, hlook, if_pos rfl]
  · rw [hkeep Thread.resumer t fun _ => rfl, hlook, if_pos rfl]
  · rw [World.dropBody, World.thread_modifyThread
      (World.has_entered.mpr (World.has_of_suspended ht)), if_pos rfl]
  · rw [hkeep Thread.nonYieldable t fun _ => rfl, hlook, if_pos rfl]
    exact hy
  · rw [hkeep Thread.status w.current fun _ => rfl, hlook, if_neg hne, if_pos rfl]

/-- Both runs start with the same call. -/
theorem Mirror.start (host : HostCode H) (replies : Nat → List Value) {w : World H}
    {t : ThreadId} {f : Value} (args : List Value) (hmain : t ≠ .main)
    (hc : (w.thread w.current).status = .running) (ht : (w.thread t).status = .suspended)
    (hf : (w.thread t).body = some f) (hy : (w.thread t).nonYieldable = 0)
    (hresumes : w.running.length < w.limits.maxResumeDepth)
    (hdepth : w.hostDepth + 1 < w.limits.maxHostDepth) :
    ∃ x q, Course.Starts (.standard host) w t args x ∧
      Course.Starts ((Behaviour.standard host).recording replies) (w.recording []) t args q ∧
      Mirror replies t w.current (w.hostDepth + 1) ([], x) q := by
  have hbody : ((w.entered t).thread t).body = some f := by
    rw [World.thread_entered hc ht, if_pos rfl]
    exact hf
  have henter := Course.enterCoroutine_of_suspended hc ht hresumes (Nat.lt_of_succ_lt hdepth)
  have henter' : (w.recording []).enterCoroutine t = .ok ((w.recording []).entered t) := by
    refine Course.enterCoroutine_of_suspended ?_ ?_ hresumes (Nat.lt_of_succ_lt hdepth)
    · rw [World.thread_recording]
      exact hc
    · rw [World.thread_recording]
      exact ht
  have hbody' : (((w.recording []).entered t).thread t).body = some f := by
    rw [World.entered_recording, World.thread_recording]
    exact hbody
  refine ⟨_, _, Course.starts_of_body henter hbody, Course.starts_of_body henter' hbody', ?_⟩
  rw [World.entered_recording, World.dropBody_recording]
  exact Mirror.invoke host replies (Within.start hmain hc ht hy hresumes hdepth) [] f args

namespace Machine

/-! ### Main result -/

/-- **Yielding is transparent**: a coroutine that is resumed with `args` and then with one reply
after the other yields the lists that are recorded, in turn, when it is resumed once on an
instance where `yield` records its arguments and returns the replies; and its last resume
answers what that one resume answers, and leaves the same world but for the log.  The code of
the coroutine must not call back into the machine, and not yield but by calling `yield`. -/
theorem Reachable.yield_transparent {host : HostCode H} {m : Machine H}
    (hm : Reachable (.standard host) m) {t : ThreadId} {f : Value} {args : List Value}
    {replies : Nat → List Value} (ht : (m.world.thread t).status = .suspended)
    (hf : (m.world.thread t).body = some f)
    (hresumes : m.world.running.length < m.world.limits.maxResumeDepth)
    (hdepth : m.world.hostDepth + 1 < m.world.limits.maxHostDepth)
    (hplain : ∀ x, Course.Passes ((Behaviour.standard host).recording replies)
      (m.world.recording []) t args x → x.control.Plain) :
    (∀ ys, (∃ w, m.world.Yields (.standard host) t (inputsOf args replies) ys w) ↔
      ∃ x, Course.Passes ((Behaviour.standard host).recording replies) (m.world.recording []) t
        args x ∧ x.world.log = ys) ∧
    (∀ r w', (m.world.recording []).Resume ((Behaviour.standard host).recording replies) t args
        r w' ↔
      ∃ ys w, w' = w.recording ys ∧
        m.world.Finishes (.standard host) t (inputsOf args replies) ys r w) := by
  have hx : Chained ⟨m.world, m.stack, m.control.active⟩ := hm.chained
  -- A suspended coroutine is outside the chain, so no host call waits on it.
  have hout : t ∉ chain m.stack := fun hmem => (hx.status_ne_dead hmem).2 ht
  have hmain : t ≠ .main := by
    rintro rfl
    exact hout (List.mem_append_right _ (List.mem_singleton_self _))
  have hc : (m.world.thread m.world.current).status = .running := by
    rw [hx.current]
    exact hx.top
  have hy : (m.world.thread t).nonYieldable = 0 :=
    hm.counted.nonYieldable_outside hx.linked hout
  obtain ⟨x, q, hstart, hstart', hmir⟩ :=
    Mirror.start host replies args hmain hc ht hf hy hresumes hdepth
  have hplain' : ∀ z, ReflTransGen (Course.Moves ((Behaviour.standard host).recording replies) t
      m.world.current) q z → z.control.Plain := fun z hz => hplain z ⟨q, hstart', hz⟩
  have hlively := hmir.lively args hplain'
  refine ⟨fun ys => ⟨?_, ?_⟩, fun r w' => ⟨?_, ?_⟩⟩
  -- What was yielded is recorded.
  · rintro ⟨w, hyields⟩
    obtain ⟨x₁, -, -, hturns⟩ := Course.turns_of_yields hstart hlively hyields
    obtain ⟨q', hq, hm'⟩ := hmir.forward hplain' hturns
    exact ⟨q', ⟨q, hstart', Mirror.moves_of_records hq⟩, hm'.log⟩
  -- What is recorded was yielded, or it will be: the log only grows.
  · rintro ⟨z, ⟨q₀, hstart₀, hz⟩, rfl⟩
    obtain rfl := hstart₀.unique hstart'
    obtain ⟨⟨ys, y⟩, q', hzq, hm', hturns⟩ := hmir.catch_up args hplain' hz
    obtain ⟨w₁, -, hyields, -⟩ := Course.yields_of_turns hstart hturns
    refine hyields.take ?_
    have hlog := Mirror.prefix_of_records hzq
    rw [hm'.log] at hlog
    exact hlog
  -- The end of the run in one piece is the end of the last resume.
  · intro hresume
    obtain ⟨z, hz, he⟩ := Course.ends_of_resume hstart'
      (fun z hz => hmir.progress hplain' hz) hresume
    obtain ⟨⟨ys, y⟩, q', hzq, hm', hturns⟩ := hmir.catch_up args hplain' hz
    rcases ReflTransGen.cases_head hzq with rfl | ⟨z', hz', -⟩
    · rcases hm'.turn args (hplain' _ hz) with
        ⟨-, -, q₁, hq₁, -⟩ | ⟨w, r', he₁, hd, he'⟩
      · obtain ⟨z', hz', -⟩ := TransGen.head'_iff.mp hq₁
        exact absurd hz'.1 he.not_moves
      · obtain ⟨rfl, rfl⟩ := he.unique he'
        exact ⟨ys, w, rfl, Course.finishes_of_turns hstart hturns he₁ hd⟩
    · exact absurd hz'.1 he.not_moves
  -- The last resume ends, and so does the run in one piece.
  · rintro ⟨ys, w, rfl, hfin⟩
    obtain ⟨y, hturns, he⟩ := Course.turns_of_finishes hstart hlively hfin
    obtain ⟨-, -, -, hd⟩ := hfin
    obtain ⟨q', hq, hm'⟩ := hmir.forward hplain' hturns
    rcases hm'.turn args (hplain' _ (Mirror.moves_of_records hq)) with
      ⟨p₁, hturn, -⟩ | ⟨w₁, r₁, he₁, -, he'⟩
    · exact absurd hturn (he.not_turns hd)
    · obtain ⟨rfl, rfl⟩ := he.unique he₁
      exact Course.resume_of_ends hstart' (Mirror.moves_of_records hq) he'

/-- Resumes a coroutine that yields in a protected call. -/
def protectedYield : Program H (List Value) :=
  .define (.sequence .yield) fun yield =>
  .define (.sequence (.protectedCall false)) fun pcall =>
  .create (.function pcall) fun t =>
  match t with
  | .ok t => .resume t [.function yield, .nil] fun _ => .done []
  | .error _ => .done []

/-- The instance of `protectedYield` on which the coroutine is resumed. -/
def protectedYieldWorld : World .bare := ((load .bare protectedYield).run .bare 3).world

/-- The run of its coroutine in one piece. -/
theorem protectedYield_recording : ∃ (x z : Course Host.bare.recording) (w : World _),
    Course.Starts (Behaviour.bare.recording fun _ => [.boolean true])
      (protectedYieldWorld.recording []) ⟨1⟩ [.function (.created 0), .nil] x ∧
    x.all (Behaviour.bare.recording fun _ => [.boolean true]) ⟨1⟩ .main (·.control.isPlain) 20 ∧
    ReflTransGen (Course.Moves (Behaviour.bare.recording fun _ => [.boolean true]) ⟨1⟩ .main)
      x z ∧
    Course.Ends (Behaviour.bare.recording fun _ => [.boolean true]) ⟨1⟩ .main z w
      (.ok [.boolean true, .boolean true]) ∧ w.log = [[.nil]] := by
  rw [World.recording_eq]
  refine ⟨_, _, _, Course.starts_of_body (f := .function (.created 1)) rfl rfl, rfl,
    Course.moves_after 8 fun n hn => ?_,
    Course.ends_of_no_frames rfl rfl rfl (.values [.boolean true, .boolean true]), rfl⟩
  rcases n with _ | _ | _ | _ | _ | _ | _ | _ | n
  all_goals first | exact fun _ _ _ => rfl | omega

/-- The coroutine of `protectedYield` yields and comes to its end. -/
theorem yield_transparent_protectedYield : ∃ w, protectedYieldWorld.Finishes .bare ⟨1⟩
    (inputsOf [.function (.created 0), .nil] fun _ => [.boolean true]) [[.nil]]
    (.ok [.boolean true, .boolean true]) w := by
  obtain ⟨x, z, w', hs, hall, hz, he, hlog⟩ := protectedYield_recording
  have hplain : ∀ y, Course.Passes (Behaviour.bare.recording fun _ => [.boolean true])
      (protectedYieldWorld.recording []) ⟨1⟩ [.function (.created 0), .nil] y →
      y.control.Plain := by
    rintro y ⟨x', hs', hy⟩
    obtain rfl := hs'.unique hs
    exact Control.plain_of_isPlain (Course.of_all hall hy)
  obtain ⟨ys, w, rfl, hfin⟩ := ((Reachable.yield_transparent (reachable_bare protectedYield 3)
    rfl rfl (by decide) (by decide) hplain).2 _ _).mp (Course.resume_of_ends hs hz he)
  obtain rfl : ys = [[.nil]] := hlog
  exact ⟨w, hfin⟩

end Machine

end Lua
