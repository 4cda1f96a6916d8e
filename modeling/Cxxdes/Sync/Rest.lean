-- SUMMARY: What the processes that are left waiting tell about a queue or a resource when nothing is pending.
import Cxxdes.Sync.Queue
import Cxxdes.Sync.Conservation

/-!
# Objects at rest

When no token is pending, a process that is left in an operation waits for what only other
processes can do. Its operation is then impossible for the object that the history has made, so
the history is complete: all values that were put have been removed, or every unit is taken.
-/

namespace Cxxdes

variable {V E : Type}

/-! ### Queues -/

theorem Queue.Accounts.replays {maxSize : Nat} {h : List (queue V E).Event} {d : Queue V}
    (hr : (queue V E).Replays (⟨maxSize, []⟩ : Queue V) h d) : Accounts maxSize h d := by
  refine hr.invariant (I := fun h (d : Queue V) => Accounts maxSize h d)
    (fun h d c op ha hcan => ?_) (fun h d c v ha => ha.returned c v) (.init maxSize)
  cases op with
  | put v => exact ha.put c v hcan
  | pop => exact ha.pop c hcan

/-- When no token is pending, consumers that are left waiting have been given every value that
was ever put, and producers that are left waiting have filled the queue; so not both are left. -/
theorem queue_rest {C : Client (queue V E)} {maxSize : Nat} {h : List (queue V E).Event}
    {s : State (trampoline C.sub)} (hr : C.History C.Private ⟨maxSize, []⟩ h s)
    (hq : s.queue = []) :
    (∀ c, s.inline.Blocked c Queue.Op.pop →
      s.memory.1.q = [] ∧ Queue.removed h = Queue.inserted h ∧
        ∀ c' v, ¬ s.inline.Blocked c' (Queue.Op.put v)) ∧
    (∀ c v, s.inline.Blocked c (Queue.Op.put v) →
      0 < maxSize ∧ (Queue.removed h).length + maxSize = (Queue.inserted h).length ∧
        ∀ c', ¬ s.inline.Blocked c' Queue.Op.pop) := by
  have ha : Queue.Accounts maxSize h s.memory.1 := .replays hr.replays
  have hreach : C.Reaches s := by
    obtain ⟨m, hr⟩ := hr
    exact ⟨_, hr.runs⟩
  have hempty : ∀ c, s.inline.Blocked c Queue.Op.pop → s.memory.1.q = [] := fun c hb => by
    have hcan : Queue.canPop s.memory.1 = false := hreach.stopped queue_settles hq hb
    have hsize : ¬ 0 < s.memory.1.q.length := of_decide_eq_false hcan
    exact List.length_eq_zero_iff.mp (Nat.le_zero.mp (Nat.not_lt.mp hsize))
  have hfull : ∀ c v, s.inline.Blocked c (Queue.Op.put v) →
      0 < maxSize ∧ s.memory.1.q.length = maxSize := fun c v hb => by
    have hcan : Queue.canPut s.memory.1 = false := hreach.stopped queue_settles hq hb
    obtain ⟨hbounded, hsize⟩ := Bool.or_eq_false_iff.mp hcan
    have hbounded : Queue.bounded s.memory.1 = true := by simpa using hbounded
    have hpos : 0 < s.memory.1.maxSize := of_decide_eq_true hbounded
    have hge : s.memory.1.maxSize ≤ s.memory.1.q.length :=
      Nat.not_lt.mp (of_decide_eq_false hsize)
    rw [← ha.maxSize_eq]
    exact ⟨hpos, Nat.le_antisymm (ha.capacity hbounded) hge⟩
  have hnot : ∀ c c' v, s.inline.Blocked c Queue.Op.pop →
      ¬ s.inline.Blocked c' (Queue.Op.put v) := fun c c' v hpop hput => by
    obtain ⟨hpos, hlen⟩ := hfull c' v hput
    rw [hempty c hpop] at hlen
    exact Nat.ne_of_gt hpos hlen.symm
  refine ⟨fun c hb => ⟨hempty c hb, ?_, fun c' v => hnot c c' v hb⟩,
    fun c v hb => ⟨(hfull c v hb).1, ?_, fun c' hpop => hnot c' c v hpop hb⟩⟩
  · rw [← ha.contents, hempty c hb, List.append_nil]
  · rw [← ha.contents, List.length_append, (hfull c v hb).2]

namespace Queue

deriving instance DecidableEq for Op

end Queue

instance [DecidableEq V] : DecidableEq (queue V E).Op :=
  inferInstanceAs (DecidableEq (Queue.Op V))

theorem clerk.done_private : clerk.History clerk.Private ⟨1, []⟩ clerk.done.1 clerk.done.2 := by
  unfold clerk.done
  exact clerk.follow_history Client.private_of_calm _ _ _

theorem queue_rest_clerk : clerk.done.2.memory.1.q = [] ∧
    Queue.removed clerk.done.1 = Queue.inserted clerk.done.1 := by
  have hb : clerk.done.2.inline.Blocked 0 (Queue.Op.pop : (queue Nat Unit).Op) :=
    State.blocked_of_operation (by decide +kernel)
  have hr := (queue_rest clerk.done_private (List.isEmpty_iff.mp (by decide +kernel))).1 0 hb
  exact ⟨hr.1, hr.2.1⟩

/-! ### Resources -/

namespace Resource

variable {R : Holder V E}

/-- When no token is pending and no body runs, only processes in `acquire()` can be left waiting,
and then every unit has been acquired and has not been released: it belongs to a valid handle, or
to one that was valid when it was destroyed. -/
theorem resource_rest {count : BitVec 64} {hist : List (semaphore V E 64).Event}
    {s : State (trampoline R.client.sub)} (hr : R.History count hist s) (hcur : s.current = none)
    (hq : s.queue = []) {c : CoroId} {op : Semaphore.Op} (hb : s.inline.Blocked c op) :
    op = .down ∧ s.memory.1.value = 0 ∧
      s.memory.2.1.valid.count true + s.memory.2.1.dropped = count.toNat := by
  obtain ⟨n, hbal⟩ := hr.balanced
  have hreach : R.client.Reaches s := by
    obtain ⟨mem, hr⟩ := hr
    exact ⟨_, hr.runs⟩
  have hsole : s.inline.Sole := hreach.inline.sole fun _ _ h _ => h
  -- no body runs, so no unit is on its way
  obtain rfl : n = 0 := hbal.rest fun d f hst => by
    have hd : s.current = some d := hsole d f hst
    rw [hcur] at hd
    cases hd
  have hstopped := hreach.stopped (semaphore_settles 64) hq hb
  have hop : op = .down := by
    cases op with
    | down => rfl
    | up =>
        -- a body that is to call `up()` has a unit on its way
        obtain ⟨a, k, i, hst, hk, htop⟩ := hb
        have hall := (hbal.procs c).all
        rw [hst] at hall
        have hi : FrameCarries R 0 (k (.ok .unit)) := hall (.ok .unit)
        rw [hk] at hi
        cases Carries.top_up hi htop
  subst hop
  have hzero : s.memory.1.value = 0 := by simpa [semaphore] using hstopped
  have htotal : s.memory.1.value.toNat + s.memory.2.1.units + 0 = s.memory.1.max.toNat :=
    hbal.balance
  have hmax : s.memory.1.max = count := hbal.max
  refine ⟨rfl, hzero, ?_⟩
  rw [hzero, hmax] at htotal
  simpa [Handles.units] using htotal

/-- A holder with processes that acquire one unit after the other. -/
def hoarder : Holder Nat Unit where
  User := Unit
  Body := Unit
  Memory := Unit
  event := 0
  handle := id
  start _ := ()
  next _ _ m _ := (m, .acquire fun _ => ())
  keepsOut _ _ _ _ := trivial

namespace hoarder

/-- Process 0 has the only unit and waits for another one, and process 1 waits for its first. -/
def waiting : List (semaphore Nat Unit 64).Event × State (trampoline hoarder.client.sub) :=
  hoarder.client.follow [] (State.init ((⟨1, 1⟩ : Semaphore 64), ({}, ())))
    ([.bind (.call () {}), .step 0] ++ List.replicate 32 (.exec 0) ++
      [.bind (.call () {}), .step 3] ++ List.replicate 32 (.exec 1))

theorem waiting_history : hoarder.History 1 waiting.1 waiting.2 := by
  unfold waiting
  exact ⟨_, Client.recorded_follow Client.private_of_calm .refl _⟩

end hoarder

deriving instance DecidableEq for Semaphore.Op

instance (w : Nat) : DecidableEq (semaphore V E w).Op :=
  inferInstanceAs (DecidableEq Semaphore.Op)

theorem resource_rest_hoarder : hoarder.waiting.2.memory.2.1.valid.count true +
    hoarder.waiting.2.memory.2.1.dropped = (1 : BitVec 64).toNat := by
  have hb : hoarder.waiting.2.inline.Blocked 1 (Semaphore.Op.down : (semaphore Nat Unit 64).Op) :=
    State.blocked_of_operation (by decide +kernel)
  exact (resource_rest hoarder.waiting_history (Option.isNone_iff_eq_none.mp (by decide +kernel))
    (List.isEmpty_iff.mp (by decide +kernel)) hb).2.2

end Resource

end Cxxdes
