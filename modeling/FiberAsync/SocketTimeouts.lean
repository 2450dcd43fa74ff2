import FiberAsync.StatusFlags

/-!
# The timeouts of a socket

A timeval becomes a number of milliseconds when it is set, and -1 stands for no
timeout only in a context that no timeval was set in. A timeval of zero, which
is no timeout to the kernel, and one below a millisecond both become 0.
-/

namespace FiberAsync

set_option autoImplicit false

open Results

namespace Timeval

structure Valid (v : Timeval) : Prop where
  sec : 0 ≤ v.tv_sec.toInt
  usec : v.tv_usec.toNat < 10 ^ 6
  fits : v.tv_sec.toNat * 1000 + v.tv_usec.toNat / 1000 < 2 ^ 63

/-- The whole milliseconds of it. -/
def millis (v : Timeval) : Nat := v.tv_sec.toNat * 1000 + v.tv_usec.toNat / 1000

theorem Valid.toNat_ms {v : Timeval} (h : v.Valid) :
    (v.tv_sec * 1000 + v.tv_usec.sdiv 1000).toNat = v.millis := by
  have hfits := h.fits
  have husec := h.usec
  have hmul : (v.tv_sec * 1000).toNat = v.tv_sec.toNat * 1000 % 2 ^ 64 := BitVec.toNat_mul _ _
  have hdiv := sdiv_thousand_toNat (x := v.tv_usec) (by omega)
  unfold millis
  rw [BitVec.toNat_add, hmul, hdiv]
  omega

end Timeval

namespace Process

variable {κ : Type} (calls : Syscalls κ)

/-- The hooked calls that set these timeouts, one after the other. -/
def setTimeouts (s : Process κ) (fd : Int) (opts : List (TimeoutType × Timeval)) :
    Except Fault (Process κ) :=
  opts.foldlM (fun s o => (s.setsockopt calls fd (.timeout o.1 o.2)).map Prod.snd) s

/-- The last timeval in a direction. -/
def lastSet (type : TimeoutType) (opts : List (TimeoutType × Timeval)) : Option Timeval :=
  ((opts.filter fun o => o.1 = type).map Prod.snd).getLast?

/-- `do_io` arms a timer: `to != (uint64_t)-1`. -/
def Arms (timeout : BitVec 64) : Prop := timeout ≠ -1

/-- After the calls a `do_io` in the direction waits as the last timeval says,
and a call in the other direction makes no difference to it. -/
structure TimeoutKept (s : Process κ) (fd : Int) (opts : List (TimeoutType × Timeval))
    (type : TimeoutType) : Prop where
  waits : ∃ s' timeout, s.setTimeouts calls fd opts = .ok s' ∧
    s'.ioEntry fd type = .ok (.wait timeout) ∧
    (¬ Arms timeout ↔ ∀ v ∈ lastSet type opts, v = ⟨0, 0⟩) ∧
    ∀ v ∈ lastSet type opts, v ≠ ⟨0, 0⟩ → 0 < timeout.toNat ∧ v.millis ≤ timeout.toNat
  other : ∀ s' r s'' type' v, s.setTimeouts calls fd opts = .ok s' → type' ≠ type →
    s'.setsockopt calls fd (.timeout type' v) = .ok (r, s'') →
    s''.ioEntry fd type = s'.ioEntry fd type

/-- The descriptor is a socket on which `do_io` waits, with these timeouts. -/
structure Waits (s : Process κ) (fd : Int) (p : FdCtxPtr) (timeouts : TimeoutType → BitVec 64) :
    Prop where
  hooked : s.t_hook_enable = true
  found : s.fdMgr.get fd = .ok (some p)
  waits : (s.fdMgr.ctxs p).m_isClosed = false ∧ (s.fdMgr.ctxs p).m_isSocket = true ∧
    (s.fdMgr.ctxs p).m_userNonblock = false
  timeouts : ∀ type, (s.fdMgr.ctxs p).getTimeout type = timeouts type

variable {calls} {s s' : Process κ} {fd : Int} {p : FdCtxPtr}
  {timeouts : TimeoutType → BitVec 64} {type : TimeoutType}

theorem lastSet_cons (o : TimeoutType × Timeval) (opts : List (TimeoutType × Timeval)) :
    lastSet type (o :: opts) = (lastSet type opts).or (if o.1 = type then some o.2 else none) := by
  unfold lastSet
  by_cases ho : o.1 = type
  · rw [List.filter_cons_of_pos (by simpa using ho), List.map_cons, List.getLast?_cons, if_pos ho]
    cases ((opts.filter fun o => o.1 = type).map Prod.snd).getLast? <;> rfl
  · rw [List.filter_cons_of_neg (by simpa using ho), if_neg ho, Option.or_none]

theorem Waits.ioEntry (h : s.Waits fd p timeouts) (type : TimeoutType) :
    s.ioEntry fd type = .ok (.wait (timeouts type)) := by
  obtain ⟨hclosed, hsocket, huser⟩ := h.waits
  unfold Process.ioEntry
  rw [if_pos h.hooked, h.found]
  change (if (s.fdMgr.ctxs p).m_isClosed = true then _ else _) = _
  simp [hclosed, hsocket, huser, h.timeouts]

theorem getTimeout_set (ctx : FdCtx) (type type' : TimeoutType) (ms : BitVec 64) :
    (ctx.setTimeout type ms).getTimeout type' =
      if type' = type then ms else ctx.getTimeout type' := by
  cases type <;> cases type' <;> rfl

def ms (v : Timeval) : BitVec 64 := v.tv_sec * 1000 + v.tv_usec.sdiv 1000

variable (calls) in
theorem Waits.setsockopt (h : s.Waits fd p timeouts) (type : TimeoutType) (v : Timeval) :
    ∃ r s', s.setsockopt calls fd (.timeout type v) = .ok (r, s') ∧
      s'.Waits fd p (Function.update timeouts type (ms v)) := by
  have hcall : s.setsockopt calls fd (.timeout type v) =
      .ok ((s.setCtx p ((s.fdMgr.ctxs p).setTimeout type (ms v))).sys
        (calls.setsockopt_f fd (.timeout type v))) := by
    unfold Process.setsockopt
    dsimp only
    rw [if_pos h.hooked, h.found]
    rfl
  refine ⟨_, _, hcall, h.hooked, h.found, ?_, fun type' => ?_⟩
  · change (Function.update s.fdMgr.ctxs p _ p).m_isClosed = false ∧
      (Function.update s.fdMgr.ctxs p _ p).m_isSocket = true ∧
      (Function.update s.fdMgr.ctxs p _ p).m_userNonblock = false
    rw [Function.update_self]
    cases type <;> exact h.waits
  · change (Function.update s.fdMgr.ctxs p _ p).getTimeout type' = _
    rw [Function.update_self, getTimeout_set, h.timeouts, Function.update_apply]

variable (calls) in
/-- After the calls each direction has what was last set in it. -/
theorem Waits.setTimeouts (h : s.Waits fd p timeouts) (opts : List (TimeoutType × Timeval)) :
    ∃ s', s.setTimeouts calls fd opts = .ok s' ∧
      s'.Waits fd p fun type => (lastSet type opts).elim (timeouts type) ms := by
  induction opts generalizing s timeouts with
  | nil => exact ⟨s, rfl, h⟩
  | cons o opts ih =>
    obtain ⟨r, s₁, hcall, h₁⟩ := h.setsockopt calls o.1 o.2
    obtain ⟨s₂, hrest, h₂⟩ := ih h₁
    refine ⟨s₂, ?_, h₂.hooked, h₂.found, h₂.waits, fun type => ?_⟩
    · unfold Process.setTimeouts
      rw [List.foldlM_cons, hcall]
      exact hrest
    · rw [h₂.timeouts type, lastSet_cons, Function.update_apply]
      cases lastSet type opts with
      | some v => rfl
      | none =>
        by_cases ho : type = o.1
        · rw [if_pos ho, if_pos ho.symm]
          rfl
        · rw [if_neg ho, if_neg (Ne.symm ho)]
          rfl

theorem init_ctx {ctx ctx' : FdCtx} (h : s.init calls ctx = .ok (ctx', s')) :
    ctx'.m_userNonblock = false ∧ ctx'.m_recvTimeout = -1 ∧ ctx'.m_sendTimeout = -1 := by
  unfold Process.init at h
  dsimp only at h
  split at h <;> split at h
  case h_2.isTrue =>
    obtain ⟨_, _, h⟩ := bind_eq_ok.mp h
    obtain ⟨_, _, h⟩ := bind_eq_ok.mp h
    cases h
    exact ⟨rfl, rfl, rfl⟩
  case h_1.isTrue hsock => cases hsock
  all_goals
    cases h
    exact ⟨rfl, rfl, rfl⟩

/-- A socket that `FdManager` has just made a context for has no timeouts. -/
theorem waits_of_getCreate {s₀ : Process κ} (hnew : s₀.fdMgr.get fd = .ok none)
    (hget : s₀.getCreate calls fd = .ok (some p, s)) (hon : s.t_hook_enable = true)
    (htracked : s.tracked fd = .ok (some p)) : s.Waits fd p fun _ => -1 := by
  obtain ⟨o, hfound, hfilter⟩ := bind_eq_ok.mp htracked
  obtain ⟨rfl, hsocket⟩ := Option.filter_eq_some_iff.mp (ok_eq_ok_iff.mp hfilter).symm
  rw [Bool.and_eq_true, Bool.not_eq_true'] at hsocket
  have hne : fd ≠ -1 := by
    intro heq
    rw [FdManager.get, if_pos heq] at hfound
    cases hfound
  unfold getCreate at hget
  rw [if_neg hne, hnew] at hget
  change s₀.init calls (.new fd) >>= _ = _ at hget
  obtain ⟨⟨ctx, t⟩, hinit, hget⟩ := bind_eq_ok.mp hget
  obtain ⟨⟨q, m⟩, hstore, hget⟩ := bind_eq_ok.mp hget
  cases hget
  have hctx : m.ctxs p = ctx := by
    unfold FdManager.store at hstore
    split at hstore
    · cases hstore
      exact Function.update_self _ _ _
    · cases hstore
  obtain ⟨huser, hrecv, hsend⟩ := init_ctx hinit
  refine ⟨hon, hfound, ⟨hsocket.1, hsocket.2, ?_⟩, fun type => ?_⟩
  · change (m.ctxs p).m_userNonblock = false
    rw [hctx]
    exact huser
  · change (m.ctxs p).getTimeout type = -1
    rw [hctx]
    cases type
    · exact hrecv
    · exact hsend

theorem lastSet_valid {opts : List (TimeoutType × Timeval)} (hv : ∀ o ∈ opts, o.2.Valid)
    {v : Timeval} (hlast : lastSet type opts = some v) : v.Valid := by
  obtain ⟨o, ho, rfl⟩ := List.mem_map.mp (List.mem_of_getLast? hlast)
  exact hv o (List.mem_of_mem_filter ho)

section Socket

variable {s₀ : Process κ} {opts : List (TimeoutType × Timeval)}
  (hnew : s₀.fdMgr.get fd = .ok none) (hget : s₀.getCreate calls fd = .ok (some p, s))
  (hon : s.t_hook_enable = true) (htracked : s.tracked fd = .ok (some p))
  (hv : ∀ o ∈ opts, o.2.Valid)
include hnew hget hon htracked hv

/-- On a new socket, for every sequence of calls and in each direction. -/
theorem timeoutKept_iff (type : TimeoutType) :
    s.TimeoutKept calls fd opts type ↔ ∀ v ∈ lastSet type opts, 1 ≤ v.millis := by
  have hnone := waits_of_getCreate hnew hget hon htracked
  obtain ⟨t, hcalls, hwaits⟩ := hnone.setTimeouts calls opts
  have hentry := hwaits.ioEntry type
  constructor
  · intro hkept v hlast
    obtain ⟨t', timeout, hcalls', hentry', hnone, hsome⟩ := hkept.waits
    cases hcalls.symm.trans hcalls'
    cases hentry.symm.trans hentry'
    have hlast : lastSet type opts = some v := hlast
    rw [hlast] at hnone hsome
    by_cases hzero : v = ⟨0, 0⟩
    · subst v
      have harms := hnone.mpr fun w hw => (Option.some.inj hw).symm
      exact absurd (show ms ⟨0, 0⟩ ≠ -1 by decide) harms
    · have hpos := (hsome v rfl hzero).1
      change 0 < (ms v).toNat at hpos
      rw [ms, (lastSet_valid hv hlast).toNat_ms] at hpos
      exact hpos
  · intro hlong
    have hother : ∀ s' r s'' type' v, s.setTimeouts calls fd opts = .ok s' → type' ≠ type →
        s'.setsockopt calls fd (.timeout type' v) = .ok (r, s'') →
        s''.ioEntry fd type = s'.ioEntry fd type := by
      intro s' r s'' type' v hcalls' hne hcall
      cases hcalls.symm.trans hcalls'
      obtain ⟨r', t', hcall', hwaits'⟩ := hwaits.setsockopt calls type' v
      cases hcall.symm.trans hcall'
      rw [hentry, hwaits'.ioEntry type, Function.update_of_ne (Ne.symm hne)]
    refine ⟨⟨t, _, hcalls, hentry, ?_⟩, hother⟩
    cases hlast : lastSet type opts with
    | none => exact ⟨iff_of_true (fun harms => harms rfl) (by simp), by simp⟩
    | some v =>
      have hms : (ms v).toNat = v.millis := (lastSet_valid hv hlast).toNat_ms
      have hfits : v.millis < 2 ^ 63 := (lastSet_valid hv hlast).fits
      have hpos := hlong v hlast
      have harms : Arms (ms v) := by
        intro heq
        rw [heq] at hms
        change 2 ^ 64 - 1 = v.millis at hms
        omega
      refine ⟨iff_of_false (fun hnot => hnot harms) fun hzero => ?_, ?_⟩
      · rw [hzero v rfl] at hpos
        exact absurd hpos (by decide)
      · intro w hw _
        cases hw
        exact ⟨hms ▸ hpos, hms.ge⟩

end Socket

/-- A process for which descriptor 5 is a socket. -/
def oneSocket : Process Files :=
  .initial (fun n => if n = 5 then some ⟨true, O_RDWR⟩ else none) none

theorem timeoutKept_iff_set : ∃ s p, oneSocket.getCreate (Files.linux 0) 5 = .ok (some p, s) ∧
    s.tracked 5 = .ok (some p) ∧
    (s.TimeoutKept (Files.linux 0) 5 [(.SO_RCVTIMEO, ⟨2, 500000⟩), (.SO_SNDTIMEO, ⟨0, 0⟩)]
        .SO_RCVTIMEO ↔
      ∀ v ∈ lastSet .SO_RCVTIMEO [(.SO_RCVTIMEO, ⟨2, 500000⟩), (.SO_SNDTIMEO, ⟨0, 0⟩)],
        1 ≤ v.millis) := by
  have hrun : ((oneSocket.getCreate (Files.linux 0) 5).toOption.map fun x =>
      (x.1, x.2.t_hook_enable, (x.2.tracked 5).toOption)) = some (some 0, true, some (some 0)) := by
    decide +kernel
  have hnew : (oneSocket.fdMgr.get 5).toOption = some none := by decide +kernel
  obtain ⟨⟨o, s⟩, hget, hobs⟩ := Option.map_eq_some_iff.mp hrun
  simp only [Prod.mk.injEq] at hobs
  obtain ⟨rfl, hon, htracked⟩ := hobs
  have hget := toOption_eq_some.mp hget
  have htracked := toOption_eq_some.mp htracked
  refine ⟨s, 0, hget, htracked,
    timeoutKept_iff (toOption_eq_some.mp hnew) hget hon htracked ?_ .SO_RCVTIMEO⟩
  intro o ho
  rcases List.mem_pair.mp ho with rfl | rfl <;> exact ⟨by decide, by decide, by decide⟩

/-- The timeval makes `do_io` on the new socket give up at once. -/
def GivesUpAtOnce (v : Timeval) : Prop :=
  v.Valid ∧ ∃ s s' p,
    oneSocket.getCreate (Files.linux 0) 5 = .ok (some p, s) ∧ s.tracked 5 = .ok (some p) ∧
    s.setTimeouts (Files.linux 0) 5 [(.SO_RCVTIMEO, v)] = .ok s' ∧
    s'.ioEntry 5 .SO_RCVTIMEO = .ok (.wait 0) ∧
    ¬ s.TimeoutKept (Files.linux 0) 5 [(.SO_RCVTIMEO, v)] .SO_RCVTIMEO

theorem givesUpAtOnce {v : Timeval} (hv : v ∈ [(⟨0, 0⟩ : Timeval), ⟨0, 500⟩]) :
    GivesUpAtOnce v := by
  have hrun : ∀ v ∈ [(⟨0, 0⟩ : Timeval), ⟨0, 500⟩],
      ((oneSocket.getCreate (Files.linux 0) 5).toOption.bind fun x =>
        (x.2.setTimeouts (Files.linux 0) 5 [(.SO_RCVTIMEO, v)]).toOption.map fun s' =>
          (x.1, (x.2.tracked 5).toOption, (s'.ioEntry 5 .SO_RCVTIMEO).toOption)) =
      some (some 0, some (some 0), some (.wait 0)) := by decide +kernel
  obtain ⟨⟨o, s⟩, hget, hrun⟩ := Option.bind_eq_some_iff.mp (hrun v hv)
  obtain ⟨s', hcalls, hobs⟩ := Option.map_eq_some_iff.mp hrun
  simp only [Prod.mk.injEq] at hobs
  obtain ⟨rfl, htracked, hentry⟩ := hobs
  have hcalls := toOption_eq_some.mp hcalls
  have hentry := toOption_eq_some.mp hentry
  refine ⟨?_, s, s', 0, toOption_eq_some.mp hget, toOption_eq_some.mp htracked, hcalls, hentry, ?_⟩
  · rcases List.mem_pair.mp hv with rfl | rfl <;> exact ⟨by decide, by decide, by decide⟩
  · intro hkept
    obtain ⟨t, timeout, hcalls', hentry', hnone, hsome⟩ := hkept.waits
    cases hcalls.symm.trans hcalls'
    cases hentry.symm.trans hentry'
    have hlast : lastSet .SO_RCVTIMEO [(.SO_RCVTIMEO, v)] = some v := rfl
    rw [hlast] at hnone hsome
    rcases List.mem_pair.mp hv with rfl | rfl
    · have harms := hnone.mpr fun w hw => (Option.some.inj hw).symm
      exact absurd (show (0 : BitVec 64) ≠ -1 by decide) harms
    · exact absurd (hsome _ rfl (by decide)).1 (by decide)

/-- A timeval of zero, and one of half a millisecond. -/
theorem zero_timeouts_armed : GivesUpAtOnce ⟨0, 0⟩ ∧ GivesUpAtOnce ⟨0, 500⟩ :=
  ⟨givesUpAtOnce (by simp), givesUpAtOnce (by simp)⟩

end Process

end FiberAsync
