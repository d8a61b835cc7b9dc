import ScriptVm.Proofs.CallContract
import ScriptVm.Proofs.Tandem

/-!
# A call and a coroutine for one call

A function can be called, or a coroutine can be made over it and resumed.  If the
function does not yield, this comes to the same: the run goes on forever both ways, or
ends with the same failure, or comes back to the caller with the same stacks and the
same heap, up to which coroutine is which.  Only the coroutine that was made for the
call is left over.

Main statement: `call_or_coroutine`.
-/

namespace ScriptVm

variable {σ : Type} {alike : (Ref .coroutine → Ref .coroutine → Prop) → σ → σ → Prop}
  {host : Host σ} {floor : Nat}

namespace Vm

/-! ### How two runs compare -/

namespace Sequel

/-- In the first `n` states of a run, the coroutine `t` is deeper than some depth whenever it is at
work. -/
def Deep (host : Host σ) (floor : Nat) (t : Ref .coroutine) (depth n : Nat)
    (s : Sequel σ) : Prop :=
  ∀ k < n, ∀ l, s.after host floor k = .live l → l.top = t → depth < l.machine.depth

/-- **A run comes back** to some depth of the coroutine `t`, for the first time. -/
def ComesBack (host : Host σ) (floor : Nat) (t : Ref .coroutine) (depth : Nat) (s : Sequel σ)
    (l : Live σ) : Prop :=
  ∃ n, s.after host floor n = .live l ∧ l.top = t ∧ l.machine.depth ≤ depth ∧
    s.Deep host floor t depth n

/-- The coroutine `t` does not yield before the run comes back to some depth of it. -/
def NeverYields (host : Host σ) (floor : Nat) (t : Ref .coroutine) (depth : Nat) (s : Sequel σ) :
    Prop :=
  ∀ n l, s.Deep host floor t depth (n + 1) → s.after host floor n = .live l → l.top = t →
    ∀ vs M, Exec.step host l.machine ≠ .ok (some (.yielded vs)) M

end Sequel

/-- **Two runs have come back alike** to the top coroutine of the live state `before`: on its
stacks, the same results lie on what was kept; the heaps are the same up to which coroutine is
which, but for one coroutine more in the second one, which is done; and the coroutines that were
there before stand for themselves. -/
structure Live.BackAlike
    (alike : (Ref .coroutine → Ref .coroutine → Prop) → σ → σ → Prop)
    (before : Live σ) (kept : Layer) (l l' : Live σ) : Prop where
  left : l.top = before.top ∧ l.below = before.below ∧ l.config = before.config
  right : l'.top = before.top ∧ l'.below = before.below ∧ l'.config = before.config
  renamed : ∃ (U : Likeness) (results results' : List Value),
    l.machine.Twin (.renamed alike (fun _ => False) U) l'.machine ∧
    l.machine.memory.view = kept.pile (.bare results) ∧
    l'.machine.memory.view = kept.pile (.bare results') ∧ Value.Twins U results results' ∧
    (∀ q, before.machine.heap.coroutines.Holds q → U.pairs q q) ∧
    ∃ r, (∀ q, U.extra q ↔ q = r) ∧ (l'.machine.heap.coroutine r).state = .stopped

/-- **Two runs concur** that begin with a call: both go on forever; or both end with one fault, or
with one wrong use; or both come back alike; or one of them reaches the limits of sizes. -/
inductive Sequel.Concur (host : Host σ)
    (alike : (Ref .coroutine → Ref .coroutine → Prop) → σ → σ → Prop) (floor : Nat)
    (before : Live σ) (kept : Layer) (s s' : Sequel σ) : Prop
  | forever (first : s.Forever host floor) (second : s'.Forever host floor)
  | fault {f : Fault} {trace trace' : List TraceLine} {vm vm' : Vm σ}
      (first : s.Ends host floor (.error (.runtime f trace) vm))
      (second : s'.Ends host floor (.error (.runtime f trace') vm'))
  | usage {e : UsageError} {vm vm' : Vm σ} (first : s.Ends host floor (.error (.usage e) vm))
      (second : s'.Ends host floor (.error (.usage e) vm'))
  | back {l l' : Live σ} (first : s.ComesBack host floor before.top before.machine.depth l)
      (second : s'.ComesBack host floor before.top before.machine.depth l')
      (alike : before.BackAlike alike kept l l')
  | limit {d : Defect} (limit : host.sizes.Refuses d)
      (reached : (∃ vm, s.Ends host floor (.error (.defect d) vm)) ∨
        ∃ vm, s'.Ends host floor (.error (.defect d) vm))

/-! ### Runs in tandem -/

namespace Sequel

variable {s s' : Sequel σ} {t : Ref .coroutine} {depth : Nat} {l l' : Live σ}

theorem Ends.of_next {result : EStateM.Result Failure (Vm σ) (List Value)}
    (h : (s.next host floor).Ends host floor result) : s.Ends host floor result := by
  obtain ⟨n, h⟩ := h
  exact ⟨n + 1, h⟩

theorem Forever.of_next (h : ((live l).next host floor).Forever host floor) :
    (live l).Forever host floor := by
  intro n
  cases n with
  | zero => exact ⟨l, rfl⟩
  | succ n => exact h n

/-- One more state at the beginning. -/
theorem Deep.of_next {n : Nat} (hfirst : l.top = t → depth < l.machine.depth)
    (h : ((live l).next host floor).Deep host floor t depth n) :
    (live l).Deep host floor t depth (n + 1) := by
  intro k hk m hm
  cases k with
  | zero =>
    cases hm
    exact hfirst
  | succ k => exact h k (Nat.lt_of_succ_lt_succ hk) m hm

theorem ComesBack.of_next (hfirst : l.top = t → depth < l.machine.depth)
    (h : ((live l).next host floor).ComesBack host floor t depth l') :
    (live l).ComesBack host floor t depth l' := by
  obtain ⟨n, hafter, htop, hdepth, hdeep⟩ := h
  exact ⟨n + 1, hafter, htop, hdepth, hdeep.of_next hfirst⟩

theorem NeverYields.next (hfirst : l.top = t → depth < l.machine.depth)
    (h : (live l).NeverYields host floor t depth) :
    ((live l).next host floor).NeverYields host floor t depth :=
  fun n m hdeep hm => h (n + 1) m (hdeep.of_next hfirst) hm

/-- Where a run comes back to some depth of the coroutine `t`, if that takes it less than a number
of steps and `t` does not yield before. -/
def back? (host : Host σ) (floor : Nat) (t : Ref .coroutine) (depth : Nat) :
    Nat → Sequel σ → Option (Live σ)
  | 0, _ => none
  | _ + 1, ended _ => none
  | n + 1, live l =>
    if l.top = t ∧ l.machine.depth ≤ depth then some l
    else if l.top = t then
      match Exec.step host l.machine with
      | .ok (some (.yielded _)) _ => none
      | _ => back? host floor t depth n (l.next host floor)
    else back? host floor t depth n (l.next host floor)

/-- **A run that is followed until it comes back** has come back, and the coroutine has not
yielded. -/
theorem of_back? {s : Sequel σ} {t : Ref .coroutine} {depth n : Nat} {l : Live σ}
    (h : s.back? host floor t depth n = some l) :
    s.ComesBack host floor t depth l ∧ s.NeverYields host floor t depth := by
  induction n generalizing s with
  | zero => cases h
  | succ n ih =>
    cases s with
    | ended result => cases h
    | live m =>
      rw [back?] at h
      split at h
      · next hback =>
        cases h
        refine ⟨⟨0, rfl, hback.1, hback.2, fun k hk => absurd hk (Nat.not_lt_zero k)⟩, ?_⟩
        intro k m hdeep
        exact absurd (hdeep 0 (Nat.succ_pos k) l rfl hback.1) (Nat.not_lt.mpr hback.2)
      · next hnot =>
        have hfirst : m.top = t → depth < m.machine.depth := fun htop =>
          Nat.lt_of_not_le fun hle => hnot ⟨htop, hle⟩
        obtain ⟨hnext, hstays⟩ : (m.next host floor).back? host floor t depth n = some l ∧
            (m.top = t → ∀ vs M, Exec.step host m.machine ≠ .ok (some (.yielded vs)) M) := by
          split at h
          · split at h
            · cases h
            · next hother => exact ⟨h, fun _ => hother⟩
          · next hother => exact ⟨h, fun htop => absurd htop hother⟩
        obtain ⟨hback, hnever⟩ := ih hnext
        refine ⟨hback.of_next hfirst, fun k m' hdeep hm' => ?_⟩
        cases k with
        | zero =>
          cases hm'
          exact hstays
        | succ k => exact hnever k m' (fun j hj => hdeep (j + 1) (Nat.succ_lt_succ hj)) hm'

variable {before : Live σ} {kept : Layer}

theorem Concur.of_next
    (hfirst : l.top = before.top → before.machine.depth < l.machine.depth)
    (hfirst' : l'.top = before.top → before.machine.depth < l'.machine.depth)
    (h : Concur host alike floor before kept ((live l).next host floor)
      ((live l').next host floor)) :
    Concur host alike floor before kept (live l) (live l') := by
  cases h with
  | forever first second => exact .forever first.of_next second.of_next
  | fault first second => exact .fault first.of_next second.of_next
  | usage first second => exact .usage first.of_next second.of_next
  | back first second alike => exact .back (first.of_next hfirst) (second.of_next hfirst') alike
  | limit limit reached =>
    refine .limit limit (reached.imp ?_ ?_)
    · exact fun ⟨vm, h⟩ => ⟨vm, h.of_next⟩
    · exact fun ⟨vm, h⟩ => ⟨vm, h.of_next⟩

theorem Sound.next (hsyscall : ∀ i, host.syscall i = none) (h : s.Sound host.sizes) :
    (s.next host floor).Sound host.sizes := by
  cases s with
  | live l => exact Live.Sound.next hsyscall h
  | ended result => exact h

end Sequel

namespace Detour

variable {d : Detour} {s s' : Sequel σ} {before : Live σ}

/-- The call from which two runs in tandem begin. -/
structure From (d : Detour) (before : Live σ) : Prop where
  known : d.Known
  top : d.caller = before.top
  below : d.below = before.below
  config : d.config = before.config
  depth : d.kept.view.frames.length = before.machine.depth
  strangers : ∀ q, before.machine.heap.coroutines.Holds q → d.like.pairs q q
  only : ∀ q, d.like.extra q ↔ q = d.fresh

theorem Back.backAlike (hd : d.From before) {l l' : Live σ} (h : d.Back alike l l') :
    before.BackAlike alike d.kept.view l l' := by
  obtain ⟨U, results, results', hle, htwin, hview, hview', hresults⟩ := h.machines
  refine ⟨?_, ?_, U, results, results', htwin, hview, hview', hresults, ?_, d.fresh,
    ?_, h.spent⟩
  · rw [← hd.top, ← hd.below, ← hd.config]
    exact h.left
  · rw [← hd.top, ← hd.below, ← hd.config]
    exact h.right
  · exact fun q hq => hle.pairs (hd.strangers q hq)
  · rw [hle.extra]
    exact hd.only

theorem Back.depth_le {l l' : Live σ} (h : d.Back alike l l') :
    l.machine.depth ≤ d.kept.view.frames.length ∧
    l'.machine.depth ≤ d.kept.view.frames.length := by
  obtain ⟨U, results, results', -, -, hview, hview', -⟩ := h.machines
  have hdepth {M : Machine σ} {vs : List Value}
    (hM : M.memory.view = d.kept.view.pile (.bare vs)) : M.depth ≤ d.kept.view.frames.length :=
    Nat.le_of_eq (Machine.On.depth hM)
  exact ⟨hdepth hview, hdepth hview'⟩

section

variable (hsyscall : ∀ i, host.syscall i = none) (hblind : host.Blind)
  (incurious : host.Incurious alike (· = d.caller)) (hd : d.From before)
  (hfloor : floor ≤ before.below.length)
include hsyscall hblind incurious hd hfloor

/-- **Two runs in tandem go on in tandem**, or it is settled how they concur. -/
theorem Tandem.next (h : d.Tandem alike host floor s s') (sound : s.Sound host.sizes)
    (never : s.NeverYields host floor before.top before.machine.depth) :
    (∃ l l', s = .live l ∧ s' = .live l' ∧
      d.Tandem alike host floor (l.next host floor) (l'.next host floor) ∧
      (l.top = before.top → before.machine.depth < l.machine.depth) ∧
      (l'.top = before.top → before.machine.depth < l'.machine.depth)) ∨
    Sequel.Concur host alike floor before d.kept.view s s' := by
  have hfloor' : floor ≤ d.below.length := hd.below ▸ hfloor
  cases h with
  | @inside T l l' inside =>
    obtain ⟨hdeep, hother⟩ := inside.deep hd.known
    rw [hd.depth] at hdeep
    rw [hd.top] at hother
    have hstays := never 0 l (fun k hk m hm _ => by
      obtain rfl := Nat.lt_one_iff.mp hk
      cases hm
      exact hdeep) rfl (inside.left.1.trans hd.top)
    exact .inl ⟨l, l', rfl, rfl, inside.next hd.known hsyscall hblind incurious hfloor' hstays,
      fun _ => hdeep, fun h => absurd h hother⟩
  | @away T l l' away =>
    have hother := away.twin.free
    have hother' := (hd.known.apart away.le away.twin.machine.heap away.twin.top hother).1
    rw [hd.top] at hother'
    refine .inl ⟨l, l', rfl, rfl, away.next hd.known incurious hfloor', fun h => ?_,
      fun h => absurd h hother'⟩
    exact absurd (h.trans hd.top.symm) hother
  | @back l l' k other next back =>
    obtain ⟨hdepth, hdepth'⟩ := back.depth_le
    rw [hd.depth] at hdepth hdepth'
    rw [hd.top] at other
    refine .inr (.back ⟨0, rfl, back.left.1.trans hd.top, hdepth, ?_⟩ (.of_next ?_ ?_)
      (back.backAlike hd))
    · exact fun k hk => absurd hk (Nat.not_lt_zero k)
    · exact fun h => absurd h other
    · exact ⟨0, next, back.right.1.trans hd.top, hdepth',
        fun k hk => absurd hk (Nat.not_lt_zero k)⟩
  | failed same =>
    cases same with
    | runtime f _ _ => exact .inr (.fault ⟨0, rfl⟩ ⟨0, rfl⟩)
    | usage e => exact .inr (.usage ⟨0, rfl⟩ ⟨0, rfl⟩)
    | defect defect => exact .inr (.limit sound (.inl ⟨_, 0, rfl⟩))
    | exhausted => exact sound.elim
  | limitLeft limit => exact .inr (.limit limit (.inl ⟨_, 0, rfl⟩))
  | limitRight limit => exact .inr (.limit limit (.inr ⟨_, 0, rfl⟩))

/-- **Two runs in tandem concur.** -/
theorem Tandem.concur (h : d.Tandem alike host floor s s') (sound : s.Sound host.sizes)
    (never : s.NeverYields host floor before.top before.machine.depth) :
    Sequel.Concur host alike floor before d.kept.view s s' := by
  by_contra hnot
  -- As long as it is not settled how they concur, both are live.
  have hlive (n : Nat) : ∃ l l', s.after host floor n = .live l ∧
    s'.after host floor n = .live l' := by
    induction n generalizing s s' with
    | zero =>
      obtain ⟨l, l', rfl, rfl, -⟩ | hconcur :=
        h.next hsyscall hblind incurious hd hfloor sound never
      · exact ⟨l, l', rfl, rfl⟩
      · exact absurd hconcur hnot
    | succ n ih =>
      obtain ⟨l, l', rfl, rfl, hnext, hfirst, hfirst'⟩ | hconcur :=
        h.next hsyscall hblind incurious hd hfloor sound never
      · exact ih hnext (sound.next hsyscall) (never.next hfirst) fun hconcur =>
          hnot (.of_next hfirst hfirst' hconcur)
      · exact absurd hconcur hnot
  refine hnot (.forever (fun n => ?_) fun n => ?_)
  · obtain ⟨l, -, hl, -⟩ := hlive n
    exact ⟨l, hl⟩
  · obtain ⟨-, l', -, hl'⟩ := hlive n
    exact ⟨l', hl'⟩

end

end Detour

end Vm

/-! ### The two beginnings -/

/-- Make a coroutine over the callee of a call, and resume it with the arguments. -/
def Exec.makeAndResume (host : Host σ) (r : Ref .function) (context : Ref .context) :
    Exec σ (Option Exit) := do
  let _ ← fetch r
  let _ ← control host context .makeCoroutine
  control host context .resume

/-- What a new coroutine does first is a call. -/
theorem Coroutine.begin_new {vm : Vm σ} {r : Ref .coroutine} {entry : Value} {config : Config}
    (h : vm.heap.coroutine r = .new entry none config) (args : List Value) :
    Coroutine.begin host vm r args = Exec.invoke host entry 0 none
      ((Coroutine.checkOut r vm.heap vm.state).onValues fun values => values.pushAll args) := by
  have hopening (M : Machine σ) (hM : M.memory.values.size = 0) :
      opening host .initial entry none args M
        = Exec.invoke host entry 0 none (M.onValues fun values => values.pushAll args) := by
    have hpush : Exec.pushAll args M = .ok () (M.onValues fun values => values.pushAll args) := rfl
    rw [opening, if_pos rfl, start, Exec.bind_of_ok (Exec.height_apply M), hM,
      Exec.bind_of_ok hpush]
    cases entry <;> rfl
  rw [begin, h]
  refine hopening _ ?_
  simp only [checkOut, h]
  rfl

namespace Machine.Calling

variable {M : Machine σ} {fs : List Frame} {f : Frame} {r : Ref .function} {context : Ref .context}
  {imm : Int64} {next : Nat} {V args : List Value} {callee : Value} {D : List Nat}

/-- What lies below the arguments of a call, once it has been fetched. -/
def kept (M : Machine σ) (fs : List Frame) (f : Frame) (imm : Int64) (next : Nat)
    (V : List Value) : Layer :=
  { M.memory.view with values := V, frames := fs ++ [begun f (.control .call) imm next] }

/-- **Instead of the call, a new coroutine is resumed** with the arguments, unless there is no room
for its stacks. -/
theorem makeAndResume (host : Host σ) (h : M.Calling fs f r context imm next V args callee D)
    (entry : ∀ g, Exec.coroutineEntry g callee = .ok callee) :
    (∃ Q, Exec.makeAndResume host r context M
        = .ok (some (.switched (M.heap.newCoroutine (.new callee none M.config)).1 args)) Q ∧
      Stacked { M with heap := (M.heap.newCoroutine (.new callee none M.config)).2 }
        (kept M fs f imm next V) Q) ∨
    ∃ d Q, Exec.makeAndResume host r context M = .error (.defect d) Q ∧
      host.sizes.Refuses d := by
  obtain ⟨L, hfetch, hL⟩ := h.at_call.fetch
  obtain ⟨P, hpop, hP⟩ := hL.pop rfl h.values (by
    rw [List.length_append]
    exact Nat.le_add_right_of_le h.operands)
  have hmake : Exec.makeAndResume host r context M = ((do
      let made ← Exec.ofDefect (Coroutine.make host.sizes callee none M.config)
      Exec.push (.coroutine (← Exec.allocate fun h => h.newCoroutine made))
      return none : Exec σ (Option Exit)) >>= fun _ => Exec.control host context .resume) P := by
    rw [Exec.makeAndResume, Exec.bind_of_ok hfetch, Exec.control, bind_assoc,
      Exec.bind_of_ok (Exec.heap_apply L), bind_assoc, Exec.bind_of_ok hpop, entry, ← hP.config]
    rfl
  rw [hmake]
  rcases Coroutine.make_cases host.sizes callee none M.config with hmade | ⟨d, hmade, hlimit⟩
  · rw [hmade]
    let H := M.heap.newCoroutine (.new callee none M.config)
    -- The coroutine is pushed and popped again, and the arguments are taken.
    have hnew : Stacked { M with heap := H.2 } { M.memory.view with
        values := V ++ args
        frames := fs ++ [begun f (.control .call) imm next] } { P with heap := H.2 } :=
      ⟨hP.view, rfl, hP.config, hP.state⟩
    obtain ⟨N, hpush, hN⟩ := hnew.push (.coroutine H.1)
    obtain ⟨K, hpop', hK⟩ := hN.pop rfl rfl (by
      rw [List.length_append]
      exact Nat.le_add_right_of_le h.operands)
    obtain ⟨Q, htake, hQ⟩ := hK.takeFrom rfl
    have hpeek := hK.peekDelimiter rfl h.delimiters h.own (by simp)
    refine .inl ⟨Q, ?_, hQ⟩
    have hpushed : ((do
        let made ← Exec.ofDefect (.ok (.new callee none M.config))
        Exec.push (.coroutine (← Exec.allocate fun h => h.newCoroutine made))
        return none : Exec σ (Option Exit)) >>= fun _ => Exec.control host context .resume) P
        = Exec.control host context .resume N := by
      have hallocate : Exec.allocate (fun h => h.newCoroutine (.new callee none M.config)) P
          = .ok H.1 { P with heap := H.2 } := by
        show EStateM.Result.ok (P.heap.newCoroutine (.new callee none M.config)).1
          { P with heap := (P.heap.newCoroutine (.new callee none M.config)).2 } = _
        rw [hP.heap]
      simp only [Exec.ofDefect, pure_bind]
      rw [bind_assoc, Exec.bind_of_ok hallocate, bind_assoc, Exec.bind_of_ok hpush]
      rfl
    rw [hpushed, Exec.control, Exec.bind_of_ok (Exec.heap_apply N), Exec.bind_of_ok hpop']
    show (Exec.peekDelimiter >>= fun start => _) K = _
    rw [Exec.bind_of_ok hpeek, Exec.bind_of_ok htake]
    rfl
  · rw [hmade]
    exact .inr ⟨d, P, rfl, hlimit⟩

/-- What is kept refers to nothing that is not there. -/
theorem kept_twin {T : Likeness} (exact : T.Exact) (twin : M.memory.Twin T M.memory)
    (h : M.Calling fs f r context imm next V args callee D) {s : Stacks}
    (hs : s.view = kept M fs f imm next V) : s.Twin T s := by
  have hvalues : M.memory.values.toList = V ++ args ++ [callee] := h.values
  have hframes : M.memory.frames.toList = fs ++ [f] := h.at_call.frames
  have hvalues' : s.values.toList = V := congrArg Layer.values hs
  have hframes' : s.frames.toList = fs ++ [begun f (.control .call) imm next] :=
    congrArg Layer.frames hs
  have hmarks' : s.marks.toList = M.memory.marks.toList := congrArg Layer.marks hs
  have hself := List.forall₂_same.mp twin.values
  have hbelow := List.forall₂_same.mp twin.frames
  rw [hvalues] at hself
  rw [hframes] at hbelow
  refine ⟨?_, ?_, rfl, hmarks' ▸ twin.marks⟩
  · rw [hvalues']
    exact List.forall₂_same.mpr fun v hv => hself v (by simp [hv])
  · rw [hframes']
    refine List.forall₂_same.mpr fun g hg => ?_
    rcases List.mem_append.mp hg with hg | hg
    · exact hbelow g (List.mem_append_left _ hg)
    · -- The frame of the caller has begun the call.
      have hf := hbelow f (by simp)
      obtain rfl := List.mem_singleton.mp hg
      refine ⟨hf.activity, hf.nextIp, ?_, .busy ((exact.1 _ _).mpr rfl) fun h => ?_, rfl⟩
      · have hip := hf.ip
        show f.activity.beside T next next
        rw [h.at_call.code] at hip ⊢
        obtain ⟨u, i, hhome, -⟩ := hip
        exact ⟨u, i, hhome, (exact.2 u i next next).mpr rfl⟩
      · cases h

end Machine.Calling

namespace Vm

/-- The rest of a run in which a new coroutine is resumed instead of a call. -/
def Live.oneShot (host : Host σ) (floor : Nat) (r : Ref .function) (context : Ref .context)
    (l : Live σ) : Sequel σ :=
  l.pursue host floor (Exec.makeAndResume host r context l.machine)

/-- A function that gets an activation when it is called. -/
def Callable (callee : Value) : Prop :=
  (∃ r, callee = .function r) ∨ ∃ r, callee = .asyncFn r

theorem Callable.entry {callee : Value} (h : Callable callee) (g : Heap) :
    Exec.coroutineEntry g callee = .ok callee := by
  obtain ⟨r, rfl⟩ | ⟨r, rfl⟩ := h <;> rfl

/-- **The two beginnings are in lockstep**, on their two grounds. -/
theorem Callable.invoke {callee : Value} (h : Callable callee) {t : Footing} (suits : host.Suits t)
    (args : List Value) :
    Lockstep t (· = .bare args) (Exec.invoke host callee t.left.values.length none)
      (Exec.invoke host callee t.right.values.length none) (Same fun _ => Entered none) := by
  obtain ⟨r, rfl⟩ | ⟨r, rfl⟩ := h
  · exact Lockstep.enter suits r args none none
  · exact Lockstep.enterAsync suits r args none

section

variable {l : Live σ} {fs : List Frame} {f : Frame} {r : Ref .function} {context : Ref .context}
  {imm : Int64} {next : Nat} {V args : List Value} {callee : Value} {D : List Nat}

/-- A heap is a twin of the one in which a coroutine waits for a new one that has been taken out. -/
theorem Detour.heap_twin {T : Likeness} (strict : T.Strict) {h : Heap} {t : Ref .coroutine}
    (hh : h.Twin T (fun _ => False) h) (htop : T.pairs t t) (c : Coroutine) (memory : Stacks)
    (s : σ) :
    h.Twin (T.spare (h.newCoroutine c).1) (· = t)
      (Coroutine.checkOut (h.newCoroutine c).1
        (Coroutine.checkIn t .inStack memory (h.newCoroutine c).2) s).heap := by
  have haside : h.Twin T (· = t) h := hh.free fun _ _ _ _ h => h.elim
  have hspare := haside.newSpare strict.2 c
  refine (hspare.modifyRight (fun r hr => ?_) _).modifyRight (fun r hr => ?_) _
  · exact (hspare.sharp r t t t hr htop).mpr rfl
  · exact absurd hr ((hspare.lone _ rfl).2 r)

/-- The detour of a live state over a new coroutine, with what it keeps on its stacks. -/
def Detour.of (l : Live σ) (kept : Stacks) (fresh : Ref .coroutine) (T : Likeness)
    (frame : Frame) : Detour where
  caller := l.top
  record := l.machine.heap.coroutine l.top
  kept
  below := l.below
  config := l.config
  fresh
  frame
  like := T.spare fresh

theorem Detour.from_of {T : Likeness} (strict : T.Strict)
    (twin : l.machine.Twin (.renamed alike (fun _ => False) T) l.machine)
    (htop : T.pairs l.top l.top)
    (hout : Coroutine.checkedOut (l.machine.heap.coroutine l.top) = l.machine.heap.coroutine l.top)
    (calling : l.machine.Calling fs f r context imm next V args callee D) {kept : Stacks}
    (hkept : kept.view = Machine.Calling.kept l.machine fs f imm next V) (fresh : Ref .coroutine)
    (frame : Frame) : (Detour.of l kept fresh T frame).From l where
  known := {
    caller := htop
    fresh := rfl
    record := (twin.heap.coroutines _ _ htop id).mono (T.within_spare fresh)
    kept := (calling.kept_twin twin.state.1 twin.memory hkept).mono (T.within_spare fresh)
    out := hout }
  top := rfl
  below := rfl
  config := rfl
  depth := by
    have hframes : l.machine.memory.frames.toList = fs ++ [f] := calling.at_call.frames
    rw [Machine.depth, Stack.size_eq_length, hframes]
    show kept.view.frames.length = _
    rw [hkept]
    simp [Machine.Calling.kept]
  strangers q hq := by
    obtain ⟨q', hpair⟩ := twin.heap.total q hq
    obtain rfl := strict.1 q q' hpair
    exact hpair
  only _ := Iff.rfl

/-- **The new coroutine is on top** of the one that calls, and has not begun; that one waits for
it. -/
structure Detour.Switched (d : Detour) (entry : Value) (vm : Vm σ) : Prop where
  active : vm.active = d.fresh :: d.caller :: d.below
  config : vm.config = d.config
  fresh : vm.heap.coroutine d.fresh = .new entry none d.record.config
  waits : vm.heap.coroutine d.caller = d.waiting
  ne : d.caller ≠ d.fresh
  held : vm.heap.coroutines.Holds d.caller ∧ vm.heap.coroutines.Holds d.fresh

/-- The scheduler has switched to a coroutine that has been made. -/
theorem Detour.switched_of (hheld : l.machine.heap.coroutines.Holds l.top)
    (hconfig : l.machine.config = (l.machine.heap.coroutine l.top).config) {Q : Machine σ}
    (hheap : Q.heap = (l.machine.heap.newCoroutine (.new callee none l.machine.config)).2)
    (args : List Value) (T : Likeness) (frame : Frame) :
    let fresh := (l.machine.heap.newCoroutine (.new callee none l.machine.config)).1
    (Detour.of l Q.memory fresh T frame).Switched callee
      (returned l.top l.config (fresh :: l.top :: l.below) (.switched fresh args) Q) := by
  intro fresh
  have hne : l.top ≠ fresh := hheld.ne_add (.new callee none l.machine.config)
  have hQheld : Q.heap.coroutines.Holds l.top := by
    rw [hheap]
    exact Store.holds_add_iff.mpr (.inl hheld)
  have hQfresh : Q.heap.coroutines.Holds fresh := by
    rw [hheap]
    exact Store.holds_add_iff.mpr (.inr rfl)
  refine ⟨rfl, rfl, ?_, ?_, hne, Heap.holds_modifyCoroutine.mpr hQheld,
    Heap.holds_modifyCoroutine.mpr hQfresh⟩
  · refine (Heap.coroutine_modify_of_ne hne.symm _).trans ?_
    rw [hheap, show (Detour.of l Q.memory fresh T frame).record.config = _ from hconfig.symm]
    exact Store.get_add_self _ _
  · refine (Heap.coroutine_modify_self hQheld _).trans ?_
    rw [hheap]
    exact congrArg (fun c => { c with state := .inStack, memory := Q.memory })
      (Store.get_add_of_holds _ _ hheld)

namespace Detour.Switched

variable {d : Detour} {entry : Value} {vm : Vm σ}

theorem accepted (h : d.Switched entry vm) :
    Coroutine.canResume (vm.heap.coroutine d.fresh).state := by
  rw [h.fresh]
  rfl

/-- The machine of the new coroutine is a twin of one on new stacks in the heap of the call. -/
theorem twin (h : d.Switched entry vm) {A : Machine σ} (hconfig : A.config = d.record.config)
    (hheap : A.heap.Twin d.like (· = d.caller) (Coroutine.checkOut d.fresh vm.heap vm.state).heap)
    (hstate : (d.mirror alike d.like).states d.like A.state vm.state)
    {args : List Value} (hargs : Value.Twins d.like args args)
    (hmemory : A.memory = (Stacks.new d.record.config).given args) :
    A.Twin (d.mirror alike d.like)
      ((Coroutine.checkOut d.fresh vm.heap vm.state).onValues fun values =>
        values.pushAll args) := by
  refine ⟨hheap, ?_, ?_, hstate⟩
  · show A.memory.Twin d.like ((vm.heap.coroutine d.fresh).memory.given args)
    rw [h.fresh, hmemory]
    exact (Stacks.Twin.new _).given hargs
  · show (vm.heap.coroutine d.fresh).config = A.config
    rw [h.fresh, hconfig]
    rfl

/-- The function has begun in both runs. -/
theorem inside (h : d.Switched entry vm) {args : List Value} {M N M' : Machine σ}
    (hbegin : Coroutine.begin host vm d.fresh args = .ok () M')
    (abreast : ScriptVm.Abreast (d.footing host.sizes) d.frame M N)
    (twin : N.Twin (d.mirror alike d.like) M') (hrecord : M.heap.coroutine d.caller = d.record) :
    d.Tandem alike host floor (.live ⟨M, d.caller, d.below, d.config⟩)
      (enter host args vm) := by
  have henter := enter_of_begin h.active h.accepted hbegin
  obtain ⟨htop, hconfig⟩ := enter_top henter h.held.2
  have hsame : M.config = N.config := by
    obtain ⟨-, c, same, -⟩ := abreast
    exact same.config
  rw [h.fresh] at htop hconfig
  rw [henter]
  refine .inside ⟨Likeness.le_refl _, ⟨N, abreast, twin⟩, ⟨rfl, rfl, rfl⟩,
    ⟨rfl, rfl, h.config⟩, hrecord, ?_, ?_, (enter_others henter h.held.1 h.ne).trans h.waits⟩
  · exact hsame.trans (twin.config.symm.trans hconfig)
  · show (M'.heap.coroutine d.fresh).config = _
    rw [htop]
    rfl

/-- **The two runs begin in tandem**, whatever the call `x` comes to: the call `y` on new stacks
comes to the same, and the new coroutine begins with a twin of it. -/
theorem begins (h : d.Switched entry vm) {l : Live σ}
    (left : l.top = d.caller ∧ l.below = d.below ∧ l.config = d.config) {args : List Value}
    {x y : Exec σ Unit} {P A : Machine σ} {R : Unit → Unit → Prop}
    (agree : Agree (d.footing host.sizes) P.heap (Same fun _ => Entered none) (x P) (y A))
    (mirrored : Mirrored (d.mirror alike d.like) R (y A) (Coroutine.begin host vm d.fresh args))
    (hrecord : P.heap.coroutine d.caller = d.record) (hheld : P.heap.coroutines.Holds d.caller) :
    ∃ g : Frame, Detour.Tandem { d with frame := g } alike host floor
      (l.pursue host floor ((do
        x
        return none : Exec σ (Option Exit)) P)) (enter host args vm) := by
  obtain ⟨machine, top, below, config⟩ := l
  obtain ⟨rfl, rfl, rfl⟩ := left
  generalize hx : x P = result at agree
  generalize y A = between at agree mirrored
  generalize hbegin : Coroutine.begin host vm d.fresh args = opened at mirrored
  cases agree with
  | limitLeft limit =>
    rw [Exec.bind_of_error hx]
    exact ⟨d.frame, .limitLeft limit⟩
  | limitRight limit =>
    cases mirrored with
    | error _ _ =>
      rw [enter_of_fails h.active h.accepted hbegin]
      exact ⟨d.frame, .limitRight limit⟩
  | fault _ _ =>
    cases mirrored with
    | error _ _ =>
      rw [enter_of_fails h.active h.accepted hbegin, Exec.bind_of_error hx]
      exact ⟨d.frame, .failed (.runtime _ _ _)⟩
  | ok same grows entered =>
    cases mirrored with
    | ok twin _ =>
      obtain ⟨-, g, -, hg⟩ := entered
      have switched : Detour.Switched { d with frame := g } entry vm := { h with }
      rw [Exec.bind_of_ok hx]
      exact ⟨g, switched.inside hbegin (Abreast.of_activation same hg) twin
        ((grows.coroutine hheld).trans hrecord)⟩

end Detour.Switched

/-- **The run with a call and the one with a new coroutine begin in tandem**, unless there is no
room for the new one. -/
theorem Live.Whole.tandem (hsyscall : ∀ i, host.syscall i = none) (hblind : host.Blind)
    (incurious : host.Incurious alike (· = l.top)) (whole : l.Whole alike floor)
    (calling : l.machine.Calling fs f r context imm next V args callee D)
    (callable : Callable callee) :
    (∃ d : Detour, d.From l ∧ d.kept.view = Machine.Calling.kept l.machine fs f imm next V ∧
      d.Tandem alike host floor (l.next host floor) (l.oneShot host floor r context)) ∨
    ∃ defect vm, l.oneShot host floor r context = .ended (.error (.defect defect) vm) ∧
      host.sizes.Refuses defect := by
  obtain ⟨⟨T, strict, twin, hactive⟩, hout, hconfig, -⟩ := whole
  obtain ⟨htop, -⟩ := List.forall₂_cons.mp hactive
  rcases calling.makeAndResume host callable.entry with ⟨Q, hmake, hQ⟩ |
    ⟨defect, Q, hmake, hlimit⟩
  · obtain ⟨P, hP, hstep⟩ :=
      Machine.step_call host calling.at_call calling.values calling.delimiters
      calling.own calling.operands
    let fresh := (l.machine.heap.newCoroutine (.new callee none l.machine.config)).1
    let vm := returned l.top l.config (fresh :: l.top :: l.below) (.switched fresh args) Q
    let d := Detour.of l Q.memory fresh T
    have hd (g : Frame) : (d g).From l :=
      Detour.from_of strict twin htop hout calling hQ.view fresh g
    have hheld := (twin.heap.held _ _ htop).1
    have switched : (d f).Switched callee vm := Detour.switched_of hheld hconfig hQ.heap args T f
    have honeShot : l.oneShot host floor r context = enter host args vm := by
      rw [oneShot, hmake]
      rfl
    -- Between the two runs there is one more, on new stacks but in the heap of the call.
    let A : Machine σ := ⟨P.heap, (Stacks.new l.machine.config).given args, P.config, P.state⟩
    have hself := List.forall₂_same.mp twin.memory.values
    rw [show l.machine.memory.values.toList = _ from calling.values] at hself
    have hargs : Value.Twins T args args :=
      List.forall₂_same.mpr fun v hv => hself v (by simp [hv])
    have hcallee : callee.Twin T callee := hself callee (by simp)
    have hwithin := T.within_spare fresh
    have hheap : P.heap.Twin (T.spare fresh) (· = l.top) (Coroutine.checkOut fresh
        (Coroutine.checkIn l.top .inStack Q.memory Q.heap) vm.state).heap := by
      rw [hP.heap, hQ.heap]
      exact Detour.heap_twin strict twin.heap htop _ _ _
    have hstate : T.Exact ∧ alike T.pairs P.state Q.state := by
      rw [hP.state, hQ.state]
      exact twin.state
    have htwin := switched.twin (A := A) (hP.config.trans hconfig) hheap hstate (hargs.mono hwithin)
      (congrArg (fun config => (Stacks.new config).given args) hconfig)
    have hmirrors := Mirrors.invoke (m := (d f).mirror alike (T.spare fresh)) incurious
      (hcallee.mono hwithin) 0 none A _ htwin
    have halike : Alike ((d f).footing host.sizes) (.bare args) P A := by
      refine ⟨?_, ?_, rfl, rfl, rfl, False.elim⟩
      · show P.memory.view = Q.memory.view.pile (.bare args)
        rw [hP.view, hQ.view, Layer.pile_bare]
        rfl
      · show ((Stacks.new l.machine.config).given args).view = _
        rw [Stacks.view_given, Stacks.view_new]
        rfl
    have hlockstep := callable.invoke ⟨rfl, hsyscall, .inr hblind⟩ args _ P A halike rfl
    rw [show ((d f).footing host.sizes).left.values.length = V.length from
      congrArg (fun c => c.values.length) hQ.view,
      show ((d f).footing host.sizes).right.values.length = 0 from rfl] at hlockstep
    rw [← show Coroutine.begin host vm fresh args
      = _ from Coroutine.begin_new switched.fresh args]
      at hmirrors
    obtain ⟨g, tandem⟩ := switched.begins (l := l) ⟨rfl, rfl, rfl⟩ hlockstep hmirrors
      (hP.heap ▸ rfl) (hP.heap ▸ hheld)
    rw [honeShot, Live.next, hstep]
    exact .inl ⟨d g, hd g, hQ.view, tandem⟩
  · have hended : l.oneShot host floor r context
        = .ended (failed l.top l.config (l.top :: l.below) (.defect defect) Q) := by
      rw [oneShot, hmake]
      rfl
    exact .inr ⟨defect, _, hended, hlimit⟩

end

end Vm

/-- **A call and a coroutine for one call come to the same.**  In a state that arises, a function
with an activation of its own is about to be called with the values that its caller has delimited.
The functions of the host do not look at the coroutine that calls, at which coroutine is which, nor
at capacities of stacks and numbers of buckets.  If the coroutine that calls does not yield until
the call has come back, then the run with the call concurs with the run in which a coroutine is made
over the function instead and resumed with these values.  A run that ends or goes on forever does so
by the scheduler's own code, with whatever fuel is enough. -/
theorem call_or_coroutine {l : Vm.Live σ} (hsyscall : ∀ i, host.syscall i = none)
    (hblind : host.Blind)
    (incurious : host.Incurious alike (· = l.top)) (arises : l.Arises host alike floor)
    {fs : List Frame} {f : Frame} {r : Ref .function} {context : Ref .context} {imm : Int64}
    {next : Nat} {V args : List Value} {callee : Value} {D : List Nat}
    (calling : l.machine.Calling fs f r context imm next V args callee D)
    (callable : Vm.Callable callee)
    (never : (l.next host floor).NeverYields host floor l.top l.machine.depth) :
    Vm.Sequel.Concur host alike floor l (Machine.Calling.kept l.machine fs f imm next V)
        (l.next host floor) (l.oneShot host floor r context) ∧
      (∀ (s : Vm.Sequel σ) (result), s.Ends host floor result →
        ∃ n, ∀ k fuel, n ≤ k → n ≤ fuel → s.rest host floor k fuel = result) ∧
      (∀ s : Vm.Sequel σ, s.Forever host floor →
        ∀ k fuel, ∃ vm, s.rest host floor k fuel = .error .exhausted vm) ∧
      ∀ (fuel : Nat) (values : List Value) (vm : Vm σ),
        Vm.loop host floor (fuel + 1) values vm
          = (Vm.enter host values vm).rest host floor fuel fuel := by
  refine ⟨?_, fun _ _ => Vm.Sequel.rest_of_ends, fun _ => Vm.Sequel.rest_of_forever,
    Vm.loop_eq_rest⟩
  have whole : l.Whole alike floor := arises.whole (incurious.fewer fun _ => False.elim)
  have sound : (l.next host floor).Sound host.sizes := (arises.sound hsyscall).next hsyscall
  rcases whole.tandem hsyscall hblind incurious calling callable with
    ⟨d, begins, hkept, tandem⟩ | ⟨defect, vm, hended, limit⟩
  · rw [← hkept]
    exact tandem.concur hsyscall hblind (begins.top ▸ incurious) begins whole.floor sound never
  · exact .limit limit (.inr ⟨vm, 0, hended⟩)

/-- A function calls another one, which adds one to its argument (`0x50` loads the first argument
and `0x31` the number one). -/
def CodeUnit.successor : CodeUnit := ⟨#[
  ⟨"caller", #[(Op.control .delimit).byte, 0x50, (Op.loadFunction .short).byte, 1,
    (Op.control .call).byte, (Op.control .ret).byte], 0, []⟩,
  ⟨"successor", #[0x50, 0x31, (Op.binary .add).byte, (Op.control .ret).byte], 0, []⟩], #[], 0⟩

/-- A scheduler with a coroutine over the first function. -/
def Vm.successor : Vm Unit := .over .successor ()

theorem Vm.arises_successor : Vm.successor.Arises .bare (Host.Settled fun _ _ _ => True) :=
  Vm.arises_over (u := .successor) .bare Nat.zero_lt_two fun _ _ => trivial

/-- A function is called that adds one to its argument, and a coroutine is made over it instead. -/
theorem call_or_coroutine_successor :
    let alike (_ : Ref .coroutine → Ref .coroutine → Prop) (_ _ : Unit) : Prop := True
    ∃ (l : Vm.Live Unit) (f : Frame) (V args : List Value) (callee : Value),
      (∀ i, Host.bare.syscall i = none) ∧ Host.bare.Blind ∧
        Host.bare.Incurious alike (· = l.top) ∧
      l.Arises .bare alike 0 ∧ l.machine.Calling [] f ⟨0⟩ ⟨0⟩ 0 5 V args callee [] ∧
      Vm.Callable callee ∧ (l.next .bare 0).NeverYields .bare 0 l.top l.machine.depth ∧
      (∃ b, (l.next .bare 0).ComesBack .bare 0 l.top l.machine.depth b ∧
        b.machine.memory.values.toList = [.int 7, .int 8]) ∧
      (∃ b, (l.oneShot .bare 0 ⟨0⟩ ⟨0⟩).ComesBack .bare 0 l.top l.machine.depth b ∧
        b.machine.memory.values.toList = [.int 7, .int 8]) ∧
      Vm.Sequel.Concur .bare alike 0 l (Machine.Calling.kept l.machine [] f 0 5 V)
        (l.next .bare 0) (l.oneShot .bare 0 ⟨0⟩ ⟨0⟩) := by
  intro alike
  let f : Frame := ⟨.bytecode ⟨0⟩ ⟨0⟩, 0, 1, 1, 1, 2, 4, 0, 0, none,
    (Progress.start (.loadFunction .short) 1).complete⟩
  let start := Vm.enter .bare [.int 7] { Vm.successor with active := [⟨0⟩] }
  obtain ⟨l, hl⟩ : ∃ l, (start.after .bare 0 3).live? = some l :=
    Option.isSome_iff_exists.mp (by decide +kernel)
  have arises : l.Arises .bare alike 0 :=
    .of_enter Vm.arises_successor Nat.zero_lt_one (by simp [Value.Held]) (Vm.Sequel.eq_live hl)
  -- What is known of the state is computed from the start.
  have known {α : Type} {g : Vm.Live Unit → α} {a : α}
      (h : (start.after .bare 0 3).live?.map g = some a) : g l = a := by
    rw [hl] at h
    exact Option.some.inj h
  have htop : l.top = ⟨0⟩ := known (g := fun l => l.top) (by decide +kernel)
  have hdepth : l.machine.depth = 1 := known (g := fun l => l.machine.depth) (by decide +kernel)
  have hdecode : Instruction.decode (l.machine.heap.prototype ⟨0⟩).code 4
      = .ok ⟨(Op.control .call).byte, some (.control .call), 0, false, 5⟩ :=
    known (g := fun l => Instruction.decode (l.machine.heap.prototype ⟨0⟩).code 4)
      (by decide +kernel)
  have calling :
      l.machine.Calling [] f ⟨0⟩ ⟨0⟩ 0 5 [.int 7] [.int 7] (.function ⟨1⟩) [] := {
    at_call := {
      frames := known (g := fun l => l.machine.memory.frames.toList) (by decide +kernel)
      code := rfl
      finished := rfl
      decodes := ⟨_, hdecode⟩ }
    values := known (g := fun l => l.machine.memory.values.toList) (by decide +kernel)
    delimiters := known (g := fun l => l.machine.memory.delimiters.toList) (by decide +kernel)
    own := Nat.le_refl 0
    operands := Nat.le_refl 1 }
  obtain ⟨b, hb, hvalues⟩ := Option.map_eq_some_iff.mp (known
    (g := fun l => ((l.next .bare 0).back? .bare 0 ⟨0⟩ 1 9).map fun b =>
      b.machine.memory.values.toList)
    (a := some [.int 7, .int 8]) (by decide +kernel))
  obtain ⟨b', hb', hvalues'⟩ := Option.map_eq_some_iff.mp (known
    (g := fun l => ((l.oneShot .bare 0 ⟨0⟩ ⟨0⟩).back? .bare 0 ⟨0⟩ 1 9).map
      fun b => b.machine.memory.values.toList)
    (a := some [.int 7, .int 8]) (by decide +kernel))
  rw [← htop, ← hdepth] at hb hb'
  obtain ⟨hback, hnever⟩ := Vm.Sequel.of_back? hb
  have hsyscall : ∀ i, Host.bare.syscall i = none := fun _ => rfl
  have hblind : Host.bare.Blind := ⟨fun _ _ _ _ _ _ _ => rfl, fun _ _ _ _ _ _ => rfl⟩
  have callable : Vm.Callable (.function ⟨1⟩) := .inl ⟨_, rfl⟩
  exact ⟨l, f, [.int 7], [.int 7], .function ⟨1⟩, hsyscall, hblind,
    Host.bare_incurious _, arises, calling, callable, hnever, ⟨b, hback, hvalues⟩,
    ⟨b', (Vm.Sequel.of_back? hb').1, hvalues'⟩,
    (call_or_coroutine hsyscall hblind (Host.bare_incurious _) arises calling callable hnever).1⟩

end ScriptVm
