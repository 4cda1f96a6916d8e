-- SUMMARY: What the loops over tokens do to each field of the environment.
import Cxxdes.Core.Environment
import Mathlib.Tactic.Common

/-!
# Updates

The updates of `State.lean` are plain record updates and are unfolded where they
are used. The loops (`releaseAll`, `propagateException`, `destroyAll`) have their
lemmas here.
-/

namespace Cxxdes.State

variable {P : Program}

/-! ### releaseAll -/

private theorem releaseAll_shape (s : State P) (ts : List TokenId) :
    ∃ tk pu le, s.releaseAll ts =
      { s with tokens := tk, pushed := pu, legal := le, queue := s.queue ++ ts,
               scheduled := s.scheduled ++ ts } := by
  induction ts generalizing s with
  | nil => exact ⟨s.tokens, s.pushed, s.legal, by simp [releaseAll]⟩
  | cons t ts ih =>
      obtain ⟨tk, pu, le, h⟩ := ih (s.releaseToken t)
      refine ⟨tk, pu, le, ?_⟩
      have hcons : s.releaseAll (t :: ts) = (s.releaseToken t).releaseAll ts := rfl
      rw [hcons, h]
      simp [releaseToken, scheduleToken, setToken]

section
variable (s : State P) (ts : List TokenId)

@[simp] theorem releaseAll_now : (s.releaseAll ts).now = s.now := by
  obtain ⟨tk, pu, le, h⟩ := s.releaseAll_shape ts; rw [h]
@[simp] theorem releaseAll_nextToken : (s.releaseAll ts).nextToken = s.nextToken := by
  obtain ⟨tk, pu, le, h⟩ := s.releaseAll_shape ts; rw [h]
@[simp] theorem releaseAll_queue : (s.releaseAll ts).queue = s.queue ++ ts := by
  obtain ⟨tk, pu, le, h⟩ := s.releaseAll_shape ts; rw [h]
@[simp] theorem releaseAll_handlers : (s.releaseAll ts).handlers = s.handlers := by
  obtain ⟨tk, pu, le, h⟩ := s.releaseAll_shape ts; rw [h]
@[simp] theorem releaseAll_nextHandler : (s.releaseAll ts).nextHandler = s.nextHandler := by
  obtain ⟨tk, pu, le, h⟩ := s.releaseAll_shape ts; rw [h]
@[simp] theorem releaseAll_coros : (s.releaseAll ts).coros = s.coros := by
  obtain ⟨tk, pu, le, h⟩ := s.releaseAll_shape ts; rw [h]
@[simp] theorem releaseAll_nextCoro : (s.releaseAll ts).nextCoro = s.nextCoro := by
  obtain ⟨tk, pu, le, h⟩ := s.releaseAll_shape ts; rw [h]
@[simp] theorem releaseAll_objects : (s.releaseAll ts).objects = s.objects := by
  obtain ⟨tk, pu, le, h⟩ := s.releaseAll_shape ts; rw [h]
@[simp] theorem releaseAll_nextObject : (s.releaseAll ts).nextObject = s.nextObject := by
  obtain ⟨tk, pu, le, h⟩ := s.releaseAll_shape ts; rw [h]
@[simp] theorem releaseAll_movedFrom : (s.releaseAll ts).movedFrom = s.movedFrom := by
  obtain ⟨tk, pu, le, h⟩ := s.releaseAll_shape ts; rw [h]
@[simp] theorem releaseAll_events : (s.releaseAll ts).events = s.events := by
  obtain ⟨tk, pu, le, h⟩ := s.releaseAll_shape ts; rw [h]
@[simp] theorem releaseAll_managed : (s.releaseAll ts).managed = s.managed := by
  obtain ⟨tk, pu, le, h⟩ := s.releaseAll_shape ts; rw [h]
@[simp] theorem releaseAll_current : (s.releaseAll ts).current = s.current := by
  obtain ⟨tk, pu, le, h⟩ := s.releaseAll_shape ts; rw [h]
@[simp] theorem releaseAll_memory : (s.releaseAll ts).memory = s.memory := by
  obtain ⟨tk, pu, le, h⟩ := s.releaseAll_shape ts; rw [h]
@[simp] theorem releaseAll_scheduled : (s.releaseAll ts).scheduled = s.scheduled ++ ts := by
  obtain ⟨tk, pu, le, h⟩ := s.releaseAll_shape ts; rw [h]
@[simp] theorem releaseAll_executed : (s.releaseAll ts).executed = s.executed := by
  obtain ⟨tk, pu, le, h⟩ := s.releaseAll_shape ts; rw [h]
@[simp] theorem releaseAll_trace : (s.releaseAll ts).trace = s.trace := by
  obtain ⟨tk, pu, le, h⟩ := s.releaseAll_shape ts; rw [h]

/-- Releasing does not look at the events. -/
theorem releaseAll_withEvents (ev : EventId → List TokenId) :
    ({ s with events := ev } : State P).releaseAll ts =
      { s.releaseAll ts with events := ev } := by
  induction ts generalizing s with
  | nil => rfl
  | cons t ts ih => exact ih (s.releaseToken t)

/-- Releasing does not look at the processes. -/
theorem releaseAll_withCoros (co : CoroId → CoroData P) :
    ({ s with coros := co } : State P).releaseAll ts = { s.releaseAll ts with coros := co } := by
  induction ts generalizing s with
  | nil => rfl
  | cons t ts ih => exact ih (s.releaseToken t)

end

theorem releaseAll_of_notMem (s : State P) {ts : List TokenId} {t : TokenId} (ht : t ∉ ts) :
    (s.releaseAll ts).tokens t = s.tokens t ∧ (s.releaseAll ts).pushed t = s.pushed t := by
  induction ts generalizing s with
  | nil => exact ⟨rfl, rfl⟩
  | cons u ts ih =>
      simp only [List.mem_cons, not_or] at ht
      obtain ⟨h1, h2⟩ := ih (s.releaseToken u) ht.2
      have hcons : s.releaseAll (u :: ts) = (s.releaseToken u).releaseAll ts := rfl
      rw [hcons, h1, h2]
      simp [releaseToken, scheduleToken, setToken, Function.update_of_ne ht.1]

/-- A token that is released once is scheduled relative to the current time. -/
theorem releaseAll_of_mem (s : State P) {ts : List TokenId} {t : TokenId} (hnd : ts.Nodup)
    (ht : t ∈ ts) :
    (s.releaseAll ts).tokens t = { s.tokens t with time := (s.tokens t).time + s.now } ∧
    (s.releaseAll ts).pushed t = ((s.releaseAll ts).tokens t).key := by
  induction ts generalizing s with
  | nil => cases ht
  | cons u ts ih =>
      obtain ⟨hu, hnd⟩ := List.nodup_cons.mp hnd
      have hcons : s.releaseAll (u :: ts) = (s.releaseToken u).releaseAll ts := rfl
      rw [hcons]
      by_cases htu : t = u
      · subst htu
        obtain ⟨h1, h2⟩ := releaseAll_of_notMem (s.releaseToken t) hu
        rw [h1, h2]
        simp [releaseToken, scheduleToken, setToken]
      · have hts : t ∈ ts := (List.mem_cons.mp ht).resolve_left htu
        obtain ⟨h1, h2⟩ := ih (s.releaseToken u) hnd hts
        refine ⟨?_, h2⟩
        rw [h1]
        simp [releaseToken, scheduleToken, setToken, Function.update_of_ne htu]

/-- Releasing a token changes its time only. -/
theorem releaseAll_fields (s : State P) (ts : List TokenId) (t : TokenId) :
    ((s.releaseAll ts).tokens t).handler = (s.tokens t).handler ∧
    ((s.releaseAll ts).tokens t).coroData = (s.tokens t).coroData ∧
    ((s.releaseAll ts).tokens t).eptr = (s.tokens t).eptr := by
  induction ts generalizing s with
  | nil => exact ⟨rfl, rfl, rfl⟩
  | cons u ts ih =>
      have hcons : s.releaseAll (u :: ts) = (s.releaseToken u).releaseAll ts := rfl
      obtain ⟨h1, h2, h3⟩ := ih (s.releaseToken u)
      rw [hcons, h1, h2, h3]
      by_cases htu : t = u
      · subst htu; simp [releaseToken, scheduleToken, setToken]
      · simp [releaseToken, scheduleToken, setToken, Function.update_of_ne htu]

/-! ### propagateException -/

private theorem propagate_shape (e : Exn P.Error) (ts : List TokenId) (s : State P) :
    ts.foldl (fun s t => s.setToken t { s.tokens t with eptr := some e }) s =
      { s with tokens := fun t =>
          if t ∈ ts then { s.tokens t with eptr := some e } else s.tokens t } := by
  induction ts generalizing s with
  | nil => simp
  | cons u ts ih =>
      simp only [List.foldl_cons, ih]
      simp only [setToken]
      congr 1
      funext t
      by_cases htu : t = u
      · subst htu; by_cases hts : t ∈ ts <;> simp [hts]
      · by_cases hts : t ∈ ts <;> simp [htu, hts]

theorem propagateException_eq (s : State P) (c : CoroId) (e : Exn P.Error) :
    s.propagateException c e =
      { s with tokens := fun t =>
          if t ∈ (s.coros c).completionTokens then { s.tokens t with eptr := some e }
          else s.tokens t } :=
  propagate_shape e _ s

/-! ### doReturn -/

/-- The completion tokens of the process are released, and the process is over. -/
theorem doReturn_eq (s : State P) (c : CoroId) (r : Result P.Value P.Error) :
    s.doReturn c r =
      { s.releaseAll (s.coros c).completionTokens with
        coros := Function.update s.coros c
          { s.coros c with completionTokens := [], status := .finished }
        managed := s.managed.erase c
        current := none
        trace := s.trace ++ [.returned c r s.now] } := by
  simp [doReturn, scheduleCompletion, log, setStatus, setCoro]

/-! ### destroyAll -/

/-- Destroying processes ends them, and changes nothing else. -/
theorem destroyAll_eq (s : State P) (cs : List CoroId) :
    s.destroyAll cs =
      { s with coros := fun c =>
          if c ∈ cs then { s.coros c with status := .finished } else s.coros c } := by
  induction cs generalizing s with
  | nil => simp [destroyAll]
  | cons d cs ih =>
      have hcons : s.destroyAll (d :: cs) =
          (if (s.coros d).complete then s else s.setStatus d .finished).destroyAll cs := rfl
      have hd : (if (s.coros d).complete then s else s.setStatus d .finished) =
          s.setStatus d .finished := by
        split
        · next hcomp =>
            unfold CoroData.complete at hcomp
            split at hcomp
            · next hst => simp [setStatus, setCoro, ← hst]
            · cases hcomp
        · rfl
      rw [hcons, hd, ih]
      simp only [setStatus, setCoro]
      congr 1
      funext c
      by_cases hcd : c = d
      · subst hcd; by_cases hcs : c ∈ cs <;> simp [hcs]
      · by_cases hcs : c ∈ cs <;> simp [hcd, hcs]

end Cxxdes.State
