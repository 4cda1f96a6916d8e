-- SUMMARY: The scheduler: conservation of tokens, stable keys, a monotone clock, and the order in which tokens are executed.
import Cxxdes.Run.Ownership
import Cxxdes.Run.Replay
import Mathlib.Data.Prod.Lex
import Mathlib.Algebra.Order.Ring.Int

/-!
# Scheduler order

What a transition does to the pending tokens: all but the one on top stay where
they are, unchanged. With the ownership invariant this gives the conservation of
tokens and, from the contract of the priority queue, the order of execution.
-/

namespace Cxxdes

variable {P : Program}

/-! ### Pending tokens are kept -/

/-- The pending tokens stay pending and are not written to. -/
structure Kept (s s' : State P) : Prop where
  now : s'.now = s.now
  executed : s'.executed = s.executed
  queue : ∀ t ∈ s.queue, t ∈ s'.queue
  token : ∀ t ∈ s.queue, s'.tokens t = s.tokens t

theorem Kept.trans {s s' s'' : State P} (h : Kept s s') (h' : Kept s' s'') : Kept s s'' where
  now := h'.now.trans h.now
  executed := h'.executed.trans h.executed
  queue t ht := h'.queue t (h.queue t ht)
  token t ht := (h'.token t (h.queue t ht)).trans (h.token t ht)

theorem Quiet.kept {s s' : State P} (h : Quiet s s') : Kept s s' where
  now := h.now
  executed := h.executed
  queue t ht := by rw [h.queue]; exact ht
  token t _ := by rw [h.tokens]

namespace Owned

variable {gone : List TokenId} {s s' : State P} {own : TokenId → Owner}

theorem queue_lt (h : Owned gone s own) {t : TokenId} (ht : t ∈ s.queue) : t < s.nextToken :=
  h.lt (by rw [h.queue t ht]; simp)

theorem queue_notMem_event (h : Owned gone s own) {t : TokenId} (ht : t ∈ s.queue) (e : EventId) :
    t ∉ s.events e := by
  intro hm
  have hq := h.queue t ht
  rw [h.event e t hm] at hq
  cases hq

theorem queue_notMem_completion (h : Owned gone s own) {t : TokenId} (ht : t ∈ s.queue)
    (c : CoroId) :
    t ∉ (s.coros c).completionTokens := by
  intro hm
  have hq := h.queue t ht
  rw [h.completion c t hm] at hq
  cases hq

theorem kept_edits {cd : Option CoroId} {n : TokenId} {nn : Prop} (h : Owned gone s own)
    (he : Edits cd n nn s s') (hn : s.nextToken ≤ n) : Kept s s' where
  now := he.ext.now
  executed := he.ext.executed
  queue := he.ext.queue
  token t ht := he.ext.token t (Nat.lt_of_lt_of_le (h.queue_lt ht) hn) (h.queue_lt ht)
    (h.queue_notMem_event ht)

theorem kept_doReturn (h : Owned gone s own) (c : CoroId) (r : Result P.Value P.Error) :
    Kept s (s.doReturn c r) := by
  rw [State.doReturn_eq]
  refine ⟨by simp, by simp, fun t ht => by simp [ht], fun t ht => ?_⟩
  exact (s.releaseAll_of_notMem (h.queue_notMem_completion ht c)).1

theorem kept_propagate (h : Owned gone s own) (c : CoroId) (e : Exn P.Error) :
    Kept s (s.propagateException c e) := by
  rw [State.propagateException_eq]
  refine ⟨rfl, rfl, fun t ht => ht, fun t ht => ?_⟩
  simp [h.queue_notMem_completion ht c]

theorem kept_fire (h : Owned gone s own) {i : HandlerId} {t out : TokenId}
    (hout : (s.handlers i).completionTkn = some out) : Kept s (s.fire i t out) := by
  refine ⟨rfl, rfl, fun u hu => List.mem_append_left _ hu, fun u hu => ?_⟩
  have hne : u ≠ out := by
    rintro rfl
    have hq := h.queue u hu
    rw [h.output i u hout] at hq
    cases hq
  simp [State.fire, State.scheduleToken, State.setToken, State.setHandler,
    Function.update_of_ne hne]

theorem kept_stepped {t : TokenId} (h : Owned gone s own) (ht : t ∈ s.queue)
    (hst : Stepped s t s') : Kept (s.pop t) s' := by
  have hp := h.pop ht
  cases hst with
  | rethrow hd e => exact ⟨rfl, rfl, fun _ hu => hu, fun _ _ => rfl⟩
  | fire hd out hh he hout => exact hp.kept_fire hout
  | count hd => exact ⟨rfl, rfl, fun _ hu => hu, fun _ _ => rfl⟩
  | start c f => exact ⟨rfl, rfl, fun _ hu => hu, fun _ _ => rfl⟩
  | resume c a k r s1 hh hc hst hr =>
      have hq : Quiet (s.pop t) { s.pop t with current := some c } := .of_coros rfl
      have hk := hq.kept.trans ((hp.quiet hq).kept_edits
        (awaitResume_edits_of hr : Edits none s.nextToken False _ _) (Nat.le_refl _))
      have hlog : Quiet s1 (s1.log (.resumed c t (s.pop t).now)) := .of_coros rfl
      exact hk.trans (hlog.trans (.deliver _ c a.target k r)).kept
  | raise e => exact ⟨rfl, rfl, fun _ hu => hu, fun _ _ => rfl⟩
  | skip => exact ⟨rfl, rfl, fun _ hu => hu, fun _ _ => rfl⟩

theorem kept_ran {nn : Prop} {c : CoroId} {act : Action P.User P.Frame P.Value P.Error}
    (h : Owned gone s own) (hr : Ran nn s c act s') : Kept s s' := by
  cases hr with
  | continues s1 _ he hcont =>
      exact (h.kept_edits he (Nat.le_refl _)).trans hcont.quiet.kept
  | throws a k sm s1 _ hact hthrow hm he hcont =>
      obtain ⟨own1, h1⟩ := h.edits hm
      have hk := (h.kept_edits hm (Nat.le_refl _)).trans (h1.kept_edits he (Nat.le_refl _))
      exact hk.trans hcont.quiet.kept
  | suspends a a' k sm s1 hact hm he =>
      obtain ⟨own1, h1⟩ := h.edits hm
      have hk := (h.kept_edits hm (Nat.le_refl _)).trans (h1.kept_edits he (Nat.le_refl _))
      exact hk.trans (Quiet.suspend s1 c a' k).kept
  | returns v =>
      have hq := Quiet.setCoro s c { s.coros c with returnValue := v } rfl rfl
      exact hq.kept.trans ((h.quiet hq).kept_doReturn c _)
  | fails e => exact (h.kept_propagate c e).trans ((h.propagateException c e).kept_doReturn c _)

end Owned

/-- The state in which the rest of a transition runs: `step` has popped its token
and set the clock, `advance` has set the clock. -/
def State.begun (s : State P) : Label P → State P
  | .step t => s.pop t
  | .advance deadline => { s with now := max s.now deadline }
  | _ => s

theorem Step.kept {s s' : State P} {l : Label P} (hstep : Step s l s') (hs : s.Tidy False)
    (hl : l ≠ .reset) {gone : List TokenId} {own : TokenId → Owner} (h : Owned gone s own) :
    Kept (s.begun l) s' := by
  cases hstep with
  | call f o => exact ⟨rfl, rfl, fun _ hu => hu, fun _ _ => rfl⟩
  | bind a =>
      have he : Edits none s.nextToken False s (s.bind a) := bind_call_edits hs a (by simp)
      exact h.kept_edits he (Nat.le_refl _)
  | elsewhere c henv => exact ⟨rfl, rfl, fun _ hu => hu, fun _ _ => rfl⟩
  | step t _ htop hst => exact h.kept_stepped htop.1 (step_stepped hst)
  | advance deadline => exact ⟨rfl, rfl, fun _ hu => hu, fun _ _ => rfl⟩
  | exec c _ hex =>
      obtain ⟨f, hst, hran⟩ := exec_ran hs hex fun _ _ hf => hf.elim
      have hq : Quiet s (s.ran f) := .of_coros rfl
      exact hq.kept.trans ((h.quiet hq).kept_ran hran)
  | reset => exact absurd rfl hl

/-! ### Reachable states -/

/-- The only pending token is on top. -/
theorem State.isTop_singleton {s : State P} {t : TokenId} (hq : s.queue = [t]) : s.IsTop t := by
  unfold State.IsTop WeakOrder.Served
  rw [hq]
  refine ⟨List.mem_singleton.mpr rfl, fun _ _ => ⟨List.mem_singleton.mpr rfl, ?_⟩⟩
  intro hweak u hu
  rw [List.mem_singleton.mp hu]
  exact hweak.irrefl t (List.mem_singleton.mpr rfl)

theorem Reachable.tidy {C : State P → Label P → Prop} {s : State P} {nn : Prop}
    (h : Reachable C s) (hC : nn → ∀ s l, C s l → l.NonNeg s) : s.Tidy nn := by
  obtain ⟨m, h⟩ := h
  refine h.invariant (I := State.Tidy nn) ?_ ?_
  · intro s l s' hs hc hstep
    exact hstep.tidy (fun hnn => hC hnn s l hc) hs
  · exact ⟨fun c _ => rfl, fun _ _ => by simp [State.init]⟩

/-- Every token of a reachable state has one owner. -/
theorem Reachable.owned {C : State P → Label P → Prop} {s : State P} (h : Reachable C s) :
    ∃ own gone, Owned gone s own ∧ ((∀ s l, C s l → l ≠ .reset) → gone = []) := by
  obtain ⟨m, h⟩ := h
  have hboth : s.Tidy False ∧
      ∃ own gone, Owned gone s own ∧ ((∀ s l, C s l → l ≠ .reset) → gone = []) := by
    refine h.invariant (I := fun s => s.Tidy False ∧
      ∃ own gone, Owned gone s own ∧ ((∀ s l, C s l → l ≠ .reset) → gone = [])) ?_ ?_
    · rintro s l s' ⟨hs, own, gone, ho, hg⟩ hc hstep
      obtain ⟨own', gone', ho', hg'⟩ := hstep.owned hs ho
      exact ⟨hstep.tidy (by simp) hs, own', gone', ho', fun hC =>
        (hg' (hC s l hc)).trans (hg hC)⟩
    · exact ⟨⟨fun c _ => rfl, by simp⟩, _, [], Owned.init m, fun _ => rfl⟩
  exact hboth.2

/-! ### The order of execution -/

/-- Without an exception-only token, `token_comp` compares time and priority. -/
theorem servedAfter_iff {s : State P} {t u : TokenId} (hu : (s.tokens u).hasPriority = false) :
    s.servedAfter t u ↔
      toLex ((s.tokens u).time, (s.tokens u).priority) <
        toLex ((s.tokens t).time, (s.tokens t).priority) := by
  simp only [State.servedAfter, Token.comp, hu, Prod.Lex.toLex_lt_toLex, Bool.false_or,
    Bool.or_eq_true, Bool.and_eq_true, decide_eq_true_eq]
  constructor
  · rintro (h | ⟨h, h'⟩)
    · exact .inl h
    · exact .inr ⟨h.symm, h'⟩
  · rintro (h | ⟨h, h'⟩)
    · exact .inl h
    · exact .inr ⟨h.symm, h'⟩

/-- The token on top is least by time, then priority. -/
theorem State.IsTop.least {s : State P} {t : TokenId} (ht : s.IsTop t) (hh : s.Heaped)
    (hk : s.KeysKept) (hp : ∀ u ∈ s.queue, (s.tokens u).hasPriority = false) :
    ∀ u ∈ s.queue, toLex ((s.tokens t).time, (s.tokens t).priority) ≤
      toLex ((s.tokens u).time, (s.tokens u).priority) :=
  (ht.2 hh hk).least (fun u => toLex ((s.tokens u).time, (s.tokens u).priority))
    fun _ _ u hu => servedAfter_iff (hp u hu)

/-- In a heap that is in order and holds more than one token, no token is exception-only. -/
theorem Owned.hasPriority {s : State P} {gone : List TokenId} {own : TokenId → Owner}
    (h : Owned gone s own) (hl : s.legal = true) {u : TokenId} (hu : u ∈ s.queue) :
    (s.tokens u).hasPriority = false := by
  have hkey : (s.tokens u).key.hasPriority = (s.pushed u).hasPriority := by rw [h.keys u hu]
  exact hkey.trans (h.ordinary hl u hu)

theorem Owned.least {s : State P} {gone : List TokenId} {own : TokenId → Owner}
    (h : Owned gone s own) (hh : s.Heaped) {t : TokenId} (ht : s.IsTop t) :
    ∀ u ∈ s.queue, toLex ((s.tokens t).time, (s.tokens t).priority) ≤
      toLex ((s.tokens u).time, (s.tokens u).priority) := by
  cases hh with
  | inl hlen =>
      intro u hu
      obtain ⟨v, hv⟩ := List.length_eq_one_iff.mp
        (Nat.le_antisymm hlen (List.length_pos_of_mem hu))
      have htop := ht.1
      rw [hv, List.mem_singleton] at hu htop
      rw [hu, htop]
  | inr hl => exact ht.least (.inr hl) h.keys fun u hu => h.hasPriority hl hu

/-- What a transition with label `l` does to the tokens that are pending in `s`. -/
structure OrderKept (s : State P) (l : Label P) (s' : State P) : Prop where
  clock : s.now ≤ s'.now
  executed : s'.executed = (s.begun l).executed
  pending : ∀ u ∈ s.queue, l ≠ .step u → u ∈ s'.queue
  keys : ∀ u ∈ s.queue, u ∈ s'.queue → (s'.tokens u).key = (s.tokens u).key
  least : ∀ t, l = .step t → s.Heaped → ∀ u ∈ s.queue,
    toLex ((s.tokens t).time, (s.tokens t).priority) ≤
      toLex ((s.tokens u).time, (s.tokens u).priority)

private theorem begun_now_le (s : State P) (l : Label P) : s.now ≤ (s.begun l).now := by
  cases l with
  | step t => exact Int.le_max_right _ _
  | advance deadline => exact Int.le_max_left _ _
  | _ => exact Int.le_refl _

private theorem begun_mem {s : State P} {l : Label P} {u : TokenId} (hu : u ∈ s.queue)
    (hl : l ≠ .step u) : u ∈ (s.begun l).queue := by
  cases l with
  | step t =>
      have hne : u ≠ t := fun h => hl (h ▸ rfl)
      exact (List.mem_erase_of_ne hne).mpr hu
  | _ => exact hu

theorem Step.orderKept {s s' : State P} {l : Label P} (hstep : Step s l s')
    (hs : s.Tidy False) (hl : l ≠ .reset) {gone gone' : List TokenId}
    {own own' : TokenId → Owner} (h : Owned gone s own) (h' : Owned gone' s' own') :
    OrderKept s l s' := by
  have hk := hstep.kept hs hl h
  refine ⟨?_, hk.executed, fun u hu hne => hk.queue u (begun_mem hu hne), ?_, ?_⟩
  · rw [hk.now]; exact begun_now_le s l
  · intro u hu hu'
    have hne : l ≠ .step u := by
      rintro rfl
      -- a popped token is not pushed again
      have hex : u ∈ s'.executed := by rw [hk.executed]; simp [State.begun, State.pop]
      have hq := h'.queue u hu'
      rw [h'.executed u hex] at hq
      cases hq
    have htok := hk.token u (begun_mem hu hne)
    rw [htok]
    cases l <;> rfl
  · rintro t rfl hh
    cases hstep with
    | step _ _ htop => exact h.least hh htop

/-- In every run without `reset`: a token is scheduled once and executed at most
once, scheduled tokens are executed or pending, pending tokens keep their keys,
the clock is monotone and tokens are executed in order as long as the heap is. -/
theorem scheduler_order {s : State P} (h : Reachable (fun _ l => l ≠ .reset) s) :
    s.scheduled.Nodup ∧ s.scheduled.Perm (s.executed ++ s.queue) ∧
    ∀ l s', l ≠ .reset → Step s l s' → OrderKept s l s' := by
  obtain ⟨own, gone, ho, hgone⟩ := h.owned
  obtain rfl : gone = [] := hgone fun _ _ hl => hl
  have hs : s.Tidy False := h.tidy (by simp)
  have hnd : (s.executed ++ s.queue).Nodup := by
    refine List.nodup_append.mpr ⟨ho.executedNodup, ho.queueNodup, ?_⟩
    rintro t ht _ hu rfl
    have hq := ho.queue t hu
    rw [ho.executed t ht] at hq
    cases hq
  refine ⟨ho.scheduled.nodup_iff.mpr hnd, ho.scheduled, fun l s' hl hstep => ?_⟩
  obtain ⟨own', gone', ho', -⟩ := hstep.owned hs ho
  exact hstep.orderKept hs hl ho ho'

/-- Token 5 is executed at 3, while token 8 is pending with time 5. -/
theorem scheduler_order_relay :
    OrderKept (relay.polling fun _ l => l.keeps) (.step 5)
      (((relay.polling fun _ l => l.keeps).move (.step 5)).getD
        (relay.polling fun _ l => l.keeps)) :=
  (scheduler_order (relay.polling_reachable Label.keeps_spec)).2.2 _ _ (by simp)
    (State.moved (by decide +kernel))

/-- Processes that return at once, or throw at once. -/
abbrev crowd : Program where
  User := Bool
  Body := Bool
  Memory := Unit
  Value := Unit
  Error := Unit
  start := id
  next b m _ := (m, if b then .throw (.user ()) else .coReturn none)

namespace crowd

/-- Process 0 fails and is bound twice, so that `step()` rethrows its exception at 2 and at 9. The
tokens are taken in the order in which `std::push_heap` and `std::pop_heap` arrange them. -/
def passing : State crowd :=
  (State.init ()).after (fun _ l => l.keeps) [.call true {},
    .bind (.coroutine { coro := 0, retLatency := 9 } none),
    .bind (.coroutine { coro := 0, retLatency := 2 } none),
    .bind (.call false { latency := 1 }), .bind (.call false { latency := 7 }),
    .bind (.call false {}), .step 0, .exec 0, .step 2, .bind (.call false {}), .step 7, .exec 3,
    .step 1]

theorem passing_reachable : Reachable (fun _ l => l ≠ .reset) passing := by
  unfold passing
  exact .after Label.keeps_spec _ _

end crowd

/-- After an exception a later token is executed before an earlier one, with no exception-only
token pending. -/
theorem token_passed_over :
    ¬ ∀ (P : Program) (s s' : State P) (t u : TokenId), Reachable (fun _ l => l ≠ .reset) s →
      Step s (.step t) s' → (∀ u ∈ s.queue, (s.tokens u).hasPriority = false) → u ∈ s.queue →
      toLex ((s.tokens t).time, (s.tokens t).priority) ≤
        toLex ((s.tokens u).time, (s.tokens u).priority) := by
  intro h
  -- token 9 has time 2, token 3 has time 1
  have hle := h crowd crowd.passing _ 9 3 crowd.passing_reachable
    (State.moved (by decide +kernel)) (by decide +kernel) (by decide +kernel)
  exact absurd hle (by decide +kernel)

end Cxxdes
