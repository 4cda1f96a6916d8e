-- SUMMARY: Every token has one owner: the queue, an event, a process, a handler, or nobody any more.
import Cxxdes.Run.Cases
import Mathlib.Data.List.Perm.Basic

/-!
# Owners of tokens

A token is held in one place at a time: in the event queue, by an event, in the
completion list of a process, or as the output token of a handler. `Owned gone s
own` says so for the ghost map `own`, that the queue can rely on the keys of its
tokens, and that every scheduled token is executed, pending, or was `gone` with a
`reset`. It is kept by every primitive update, hence by every transition.
-/

namespace Cxxdes

variable {P : Program}

/-- Who holds a token. A `loose` token is held by nobody: it is about to be
stored, or it has been dropped. -/
inductive Owner where
  | nobody
  | loose
  | queue
  | event (e : EventId)
  | completion (c : CoroId)
  | output (h : HandlerId)
  | executed
deriving DecidableEq

structure Owned (gone : List TokenId) (s : State P) (own : TokenId → Owner) : Prop where
  fresh : ∀ t, s.nextToken ≤ t → own t = .nobody
  freshHandler : ∀ h, s.nextHandler ≤ h → (s.handlers h).completionTkn = none
  queue : ∀ t ∈ s.queue, own t = .queue
  event : ∀ e, ∀ t ∈ s.events e, own t = .event e
  completion : ∀ c, ∀ t ∈ (s.coros c).completionTokens, own t = .completion c
  output : ∀ h t, (s.handlers h).completionTkn = some t → own t = .output h
  executed : ∀ t ∈ s.executed, own t = .executed
  queueNodup : s.queue.Nodup
  eventNodup : ∀ e, (s.events e).Nodup
  completionNodup : ∀ c, (s.coros c).completionTokens.Nodup
  executedNodup : s.executed.Nodup
  scheduled : s.scheduled.Perm (gone ++ (s.executed ++ s.queue))
  keys : s.KeysKept
  ordinary : s.legal = true → ∀ t ∈ s.queue, (s.pushed t).hasPriority = false

namespace Owned

variable {gone : List TokenId} {s s' : State P} {own : TokenId → Owner}

theorem lt (h : Owned gone s own) {t : TokenId} (ht : own t ≠ .nobody) : t < s.nextToken :=
  Nat.lt_of_not_le fun hle => ht (h.fresh t hle)

theorem init (m : P.Memory) : Owned [] (State.init m : State P) fun _ => .nobody where
  fresh _ _ := rfl
  freshHandler _ _ := rfl
  queue _ ht := by cases ht
  event _ _ ht := by cases ht
  completion _ _ ht := by cases ht
  output _ _ ht := by cases ht
  executed _ ht := by cases ht
  queueNodup := .nil
  eventNodup _ := .nil
  completionNodup _ := .nil
  executedNodup := .nil
  scheduled := .refl _
  keys _ ht := by cases ht
  ordinary _ _ ht := by cases ht

theorem quiet (h : Owned gone s own) (hq : Quiet s s') : Owned gone s' own where
  fresh := by rw [hq.nextToken]; exact h.fresh
  freshHandler := by rw [hq.nextHandler, hq.handlers]; exact h.freshHandler
  queue := by rw [hq.queue]; exact h.queue
  event := by rw [hq.events]; exact h.event
  completion c := by rw [hq.completion c]; exact h.completion c
  output := by rw [hq.handlers]; exact h.output
  executed := by rw [hq.executed]; exact h.executed
  queueNodup := by rw [hq.queue]; exact h.queueNodup
  eventNodup := by rw [hq.events]; exact h.eventNodup
  completionNodup c := by rw [hq.completion c]; exact h.completionNodup c
  executedNodup := by rw [hq.executed]; exact h.executedNodup
  scheduled := by rw [hq.scheduled, hq.executed, hq.queue]; exact h.scheduled
  keys := by
    unfold State.KeysKept
    rw [hq.queue, hq.tokens, hq.pushed]
    exact h.keys
  ordinary := by rw [hq.legal, hq.queue, hq.pushed]; exact h.ordinary

/-! ### Giving a token a new owner -/

private theorem update_ne {t u : TokenId} {o : Owner} (hne : own u ≠ own t) :
    Function.update own t o u = own u := by
  refine Function.update_of_ne ?_ _ _
  rintro rfl
  exact hne rfl

private theorem nodup_snoc {ts : List TokenId} {t : TokenId} (hts : ts.Nodup) (ht : t ∉ ts) :
    (ts ++ [t]).Nodup := by
  refine List.nodup_append.mpr ⟨hts, by simp, ?_⟩
  intro u hu v hv
  rw [List.mem_singleton.mp hv]
  rintro rfl
  exact ht hu

/-- `new token{...}`. -/
theorem newToken (h : Owned gone s own) (tkn : Token P.Error) :
    Owned gone (s.newToken tkn) (Function.update own s.nextToken .loose) := by
  have hnew : own s.nextToken = .nobody := h.fresh _ (Nat.le_refl _)
  have hold : ∀ {u o}, own u = o → o ≠ .nobody →
      Function.update own s.nextToken .loose u = o := by
    intro u o hu ho
    rw [update_ne (by rw [hu, hnew]; exact ho), hu]
  exact {
    fresh := fun t hle => by
      have hlt : s.nextToken < t := hle
      rw [Function.update_of_ne (Nat.ne_of_gt hlt)]
      exact h.fresh t (Nat.le_of_lt hlt)
    freshHandler := h.freshHandler
    queue := fun t ht => hold (h.queue t ht) (by simp)
    event := fun e t ht => hold (h.event e t ht) (by simp)
    completion := fun c t ht => hold (h.completion c t ht) (by simp)
    output := fun hd t ht => hold (h.output hd t ht) (by simp)
    executed := fun t ht => hold (h.executed t ht) (by simp)
    queueNodup := h.queueNodup
    eventNodup := h.eventNodup
    completionNodup := h.completionNodup
    executedNodup := h.executedNodup
    scheduled := h.scheduled
    keys := fun t ht => by
      have hne : t ≠ s.nextToken := Nat.ne_of_lt (h.lt (by rw [h.queue t ht]; simp))
      have hk := h.keys t ht
      simpa [State.newToken, Function.update_of_ne hne] using hk
    ordinary := h.ordinary }

/-- `schedule_token`. -/
theorem scheduleToken (h : Owned gone s own) {t : TokenId} (ht : own t = .loose) :
    Owned gone (s.scheduleToken t) (Function.update own t .queue) := by
  have hold : ∀ {u o}, own u = o → o ≠ .loose → Function.update own t .queue u = o := by
    intro u o hu ho
    rw [update_ne (by rw [hu, ht]; exact ho), hu]
  have hnq : t ∉ s.queue := fun hm => by have := h.queue t hm; rw [ht] at this; cases this
  exact {
    fresh := fun u hle => hold (h.fresh u hle) (by simp)
    freshHandler := h.freshHandler
    queue := fun u hu => by
      rcases List.mem_append.mp hu with hu | hu
      · exact hold (h.queue u hu) (by simp)
      · rw [List.mem_singleton.mp hu]; simp
    event := fun e u hu => hold (h.event e u hu) (by simp)
    completion := fun c u hu => hold (h.completion c u hu) (by simp)
    output := fun hd u hu => hold (h.output hd u hu) (by simp)
    executed := fun u hu => hold (h.executed u hu) (by simp)
    queueNodup := nodup_snoc h.queueNodup hnq
    eventNodup := h.eventNodup
    completionNodup := h.completionNodup
    executedNodup := h.executedNodup
    scheduled := by
      have hp := h.scheduled.append_right [t]
      simpa [State.scheduleToken] using hp
    keys := fun u hu => by
      rcases List.mem_append.mp hu with hq | hq
      · have hne : u ≠ t := fun he => hnq (he ▸ hq)
        have hk := h.keys u hq
        simpa [State.scheduleToken, Function.update_of_ne hne] using hk
      · rw [List.mem_singleton.mp hq]
        simp [State.scheduleToken]
    ordinary := fun hl u hu => by
      simp only [State.scheduleToken, Bool.and_eq_true, Bool.not_eq_true', List.all_eq_true] at hl
      obtain ⟨⟨-, ht⟩, hold⟩ := hl
      by_cases hut : u = t
      · subst hut
        simpa [State.scheduleToken, Token.key] using ht
      · have hq : u ∈ s.queue := (List.mem_append.mp hu).resolve_right (by simpa using hut)
        simpa [State.scheduleToken, Function.update_of_ne hut] using hold u hq }

/-- A token outside the queue may change in any way. -/
theorem setToken (h : Owned gone s own) {t : TokenId} (ht : own t ≠ .queue) (tkn : Token P.Error) :
    Owned gone (s.setToken t tkn) own :=
  { h with
    keys := fun u hu => by
      have hne : u ≠ t := by rintro rfl; exact ht (h.queue u hu)
      have hk := h.keys u hu
      simpa [State.setToken, Function.update_of_ne hne] using hk }

/-- A token in the queue may change, except for its key. -/
theorem rekey (h : Owned gone s own) {t : TokenId} {tkn : Token P.Error}
    (hkey : tkn.key = (s.tokens t).key) : Owned gone (s.setToken t tkn) own :=
  { h with
    keys := fun u hu => by
      have hk := h.keys u hu
      by_cases hne : u = t
      · subst hne; simpa [State.setToken, hkey] using hk
      · simpa [State.setToken, Function.update_of_ne hne] using hk }

/-- `tokens_.pop()`. -/
theorem pop (h : Owned gone s own) {t : TokenId} (ht : t ∈ s.queue) :
    Owned gone (s.pop t) (Function.update own t .executed) := by
  have htq : own t = .queue := h.queue t ht
  have hold : ∀ {u o}, own u = o → o ≠ .queue → Function.update own t .executed u = o := by
    intro u o hu ho
    rw [update_ne (by rw [hu, htq]; exact ho), hu]
  have hne : t ∉ s.executed := fun hm => by
    have := h.executed t hm
    rw [htq] at this
    cases this
  exact {
    fresh := fun u hle => hold (h.fresh u hle) (by simp)
    freshHandler := h.freshHandler
    queue := fun u hu => by
      obtain ⟨hut, hu⟩ := h.queueNodup.mem_erase_iff.mp hu
      rw [Function.update_of_ne hut]
      exact h.queue u hu
    event := fun e u hu => hold (h.event e u hu) (by simp)
    completion := fun c u hu => hold (h.completion c u hu) (by simp)
    output := fun hd u hu => hold (h.output hd u hu) (by simp)
    executed := fun u hu => by
      rcases List.mem_append.mp hu with hu | hu
      · exact hold (h.executed u hu) (by simp)
      · rw [List.mem_singleton.mp hu]; simp
    queueNodup := h.queueNodup.erase t
    eventNodup := h.eventNodup
    completionNodup := h.completionNodup
    executedNodup := nodup_snoc h.executedNodup hne
    scheduled := by
      refine h.scheduled.trans ?_
      have hp := ((List.perm_cons_erase ht).append_left s.executed).append_left gone
      simpa [State.pop] using hp
    keys := fun u hu => h.keys u (List.mem_of_mem_erase hu)
    ordinary := fun hl u hu => h.ordinary hl u (List.mem_of_mem_erase hu) }

/-! ### Changing one holder -/

/-- The owners after holder `o` got the tokens `ts`. -/
def regive (own : TokenId → Owner) (o : Owner) (ts : List TokenId) : TokenId → Owner :=
  fun t => if t ∈ ts then o else if own t = o then .loose else own t

private theorem regive_keep {o o' : Owner} {ts : List TokenId}
    (hts : ∀ t ∈ ts, own t = .loose ∨ own t = o) {u : TokenId} (hu : own u = o')
    (hl : o' ≠ .loose) (ho : o' ≠ o) : regive own o ts u = o' := by
  have hnm : u ∉ ts := fun hm => by
    rcases hts u hm with h | h
    · exact hl (hu.symm.trans h)
    · exact ho (hu.symm.trans h)
  simp [regive, hnm, hu, ho]

/-- The completion tokens of a process become `ts`. -/
theorem setCompletion (h : Owned gone s own) (c : CoroId) {d : CoroData P}
    (hts : ∀ t ∈ d.completionTokens, own t = .loose ∨ own t = .completion c)
    (hnd : d.completionTokens.Nodup) :
    Owned gone (s.setCoro c d) (regive own (.completion c) d.completionTokens) := by
  have hk : ∀ {u o'}, own u = o' → o' ≠ .loose → o' ≠ .completion c →
      regive own (.completion c) d.completionTokens u = o' := regive_keep hts
  exact {
    fresh := fun t hle => hk (h.fresh t hle) (by simp) (by simp)
    freshHandler := h.freshHandler
    queue := fun t ht => hk (h.queue t ht) (by simp) (by simp)
    event := fun e t ht => hk (h.event e t ht) (by simp) (by simp)
    completion := fun c' t ht => by
      by_cases hc : c' = c
      · subst hc
        have ht : t ∈ d.completionTokens := by simpa [State.setCoro] using ht
        simp [regive, ht]
      · have ht : t ∈ (s.coros c').completionTokens := by
          simpa [State.setCoro, Function.update_of_ne hc] using ht
        exact hk (h.completion c' t ht) (by simp) (by simpa using hc)
    output := fun hd t ht => hk (h.output hd t ht) (by simp) (by simp)
    executed := fun t ht => hk (h.executed t ht) (by simp) (by simp)
    queueNodup := h.queueNodup
    eventNodup := h.eventNodup
    completionNodup := fun c' => by
      by_cases hc : c' = c
      · subst hc; simpa [State.setCoro] using hnd
      · simpa [State.setCoro, Function.update_of_ne hc] using h.completionNodup c'
    executedNodup := h.executedNodup
    scheduled := h.scheduled
    keys := h.keys
    ordinary := h.ordinary }

/-- The waiters of an event become `ts`. -/
theorem setEvent (h : Owned gone s own) (e : EventId) (ts : List TokenId)
    (hts : ∀ t ∈ ts, own t = .loose ∨ own t = .event e) (hnd : ts.Nodup) :
    Owned gone { s with events := Function.update s.events e ts } (regive own (.event e) ts) := by
  have hk : ∀ {u o'}, own u = o' → o' ≠ .loose → o' ≠ .event e →
      regive own (.event e) ts u = o' := regive_keep hts
  exact {
    fresh := fun t hle => hk (h.fresh t hle) (by simp) (by simp)
    freshHandler := h.freshHandler
    queue := fun t ht => hk (h.queue t ht) (by simp) (by simp)
    event := fun e' t ht => by
      by_cases he : e' = e
      · subst he
        have ht : t ∈ ts := by simpa using ht
        simp [regive, ht]
      · have ht : t ∈ s.events e' := by simpa [Function.update_of_ne he] using ht
        exact hk (h.event e' t ht) (by simp) (by simpa using he)
    completion := fun c t ht => hk (h.completion c t ht) (by simp) (by simp)
    output := fun hd t ht => hk (h.output hd t ht) (by simp) (by simp)
    executed := fun t ht => hk (h.executed t ht) (by simp) (by simp)
    queueNodup := h.queueNodup
    eventNodup := fun e' => by
      by_cases he : e' = e
      · subst he; simpa using hnd
      · simpa [Function.update_of_ne he] using h.eventNodup e'
    completionNodup := h.completionNodup
    executedNodup := h.executedNodup
    scheduled := h.scheduled
    keys := h.keys
    ordinary := h.ordinary }

/-- A handler, old or new, changes, and its output token becomes `hd.completionTkn`. -/
theorem putHandler (h : Owned gone s own) (i : HandlerId) (hd : Handler) {n : HandlerId}
    (hi : i < n) (hn : s.nextHandler ≤ n)
    (hts : ∀ t, hd.completionTkn = some t → own t = .loose ∨ own t = .output i) :
    Owned gone { s with handlers := Function.update s.handlers i hd, nextHandler := n }
      (regive own (.output i) hd.completionTkn.toList) := by
  have hk : ∀ {u o'}, own u = o' → o' ≠ .loose → o' ≠ .output i →
      regive own (.output i) hd.completionTkn.toList u = o' :=
    regive_keep fun t ht => hts t (by simpa using ht)
  exact {
    fresh := fun t hle => hk (h.fresh t hle) (by simp) (by simp)
    freshHandler := fun j hle => by
      have hne : j ≠ i := Nat.ne_of_gt (Nat.lt_of_lt_of_le hi hle)
      simpa [Function.update_of_ne hne] using h.freshHandler j (Nat.le_trans hn hle)
    queue := fun t ht => hk (h.queue t ht) (by simp) (by simp)
    event := fun e t ht => hk (h.event e t ht) (by simp) (by simp)
    completion := fun c t ht => hk (h.completion c t ht) (by simp) (by simp)
    output := fun j t ht => by
      by_cases hj : j = i
      · subst hj
        have ht : hd.completionTkn = some t := by simpa using ht
        simp [regive, ht]
      · have ht : (s.handlers j).completionTkn = some t := by
          simpa [Function.update_of_ne hj] using ht
        exact hk (h.output j t ht) (by simp) (by simpa using hj)
    executed := fun t ht => hk (h.executed t ht) (by simp) (by simp)
    queueNodup := h.queueNodup
    eventNodup := h.eventNodup
    completionNodup := h.completionNodup
    executedNodup := h.executedNodup
    scheduled := h.scheduled
    keys := h.keys
    ordinary := h.ordinary }

/-! ### Edits -/

/-- The tokens of a released list are scheduled. -/
theorem releaseAll {ts : List TokenId} (h : Owned gone s own) (hts : ∀ t ∈ ts, own t = .loose)
    (hnd : ts.Nodup) : ∃ own', Owned gone (s.releaseAll ts) own' := by
  induction ts generalizing s own with
  | nil => exact ⟨own, h⟩
  | cons t ts ih =>
      obtain ⟨ht, hnd⟩ := List.nodup_cons.mp hnd
      have htl : own t = .loose := hts t (List.mem_cons_self ..)
      have h1 := (h.setToken (by rw [htl]; simp)
        { s.tokens t with time := (s.tokens t).time + s.now }).scheduleToken htl
      refine ih h1 (fun u hu => ?_) hnd
      have hne : u ≠ t := fun he => ht (he ▸ hu)
      rw [Function.update_of_ne hne]
      exact hts u (List.mem_cons_of_mem _ hu)

theorem edit {cd : Option CoroId} {n : TokenId} {nn : Prop} (h : Owned gone s own)
    (he : Edit cd n nn s s') : ∃ own', Owned gone s' own' := by
  cases he with
  | newCoro f o =>
      have h1 := h.setCompletion s.nextCoro (d := .called f o) (by simp [CoroData.called]) .nil
      exact ⟨_, h1.quiet (.of_coros rfl)⟩
  | startCoro c priority henv =>
      have h1 := (h.newToken ⟨s.now + (s.coros c).latency,
        resolvePriority (s.coros c).priority priority, some c, none, none⟩).scheduleToken
          (Function.update_self ..)
      have hq := Quiet.setCoro ((s.newToken ⟨s.now + (s.coros c).latency,
        resolvePriority (s.coros c).priority priority, some c, none, none⟩).scheduleToken
          s.nextToken) c ((s.coros c).started s.current
            (resolvePriority (s.coros c).priority priority) s.nextToken) rfl rfl
      exact ⟨_, h1.quiet (hq.trans (.of_coros rfl))⟩
  | newCompletion p cd' =>
      have h1 := h.newToken ⟨p.retLatency, s.returnPriority p, cd', none, none⟩
      have hnew : s.nextToken ∉ (s.coros p.coro).completionTokens := fun hm =>
        absurd (h.lt (by rw [h.completion _ _ hm]; simp)) (Nat.lt_irrefl _)
      refine ⟨_, h1.setCompletion p.coro ?_ ?_⟩
      · intro t ht
        simp only [CoroData.completionToken] at ht
        split at ht
        · rw [List.mem_singleton.mp ht]; exact .inl (Function.update_self ..)
        · rcases List.mem_append.mp ht with ht | ht
          · exact .inr (h1.completion p.coro t ht)
          · rw [List.mem_singleton.mp ht]; exact .inl (Function.update_self ..)
      · simp only [CoroData.completionToken]
        split
        · simp
        · exact nodup_snoc (h.completionNodup p.coro) hnew
  | timeout time priority =>
      exact ⟨_, (h.newToken _).scheduleToken (Function.update_self ..)⟩
  | newWaiter evt latency priority =>
      have h1 := h.newToken ⟨latency, priority, cd, none, none⟩
      have hnew : s.nextToken ∉ s.events evt := fun hm =>
        absurd (h.lt (by rw [h.event _ _ hm]; simp)) (Nat.lt_irrefl _)
      refine ⟨_, h1.setEvent evt (s.events evt ++ [s.nextToken]) ?_
        (nodup_snoc (h.eventNodup evt) hnew)⟩
      intro t ht
      rcases List.mem_append.mp ht with ht | ht
      · exact .inr (h1.event evt t ht)
      · rw [List.mem_singleton.mp ht]; exact .inl (Function.update_self ..)
  | newHandler c total =>
      have h1 := h.newToken ⟨c.latency, c.priority, cd, none, none⟩
      refine ⟨_, h1.putHandler s.nextHandler _ (n := s.nextHandler + 1) (Nat.lt_succ_self _)
        (Nat.le_succ _) ?_⟩
      intro t ht
      cases ht
      exact .inl (Function.update_self ..)
  | install t hd hn ht hh hfree heptr =>
      refine ⟨own, h.rekey ?_⟩
      simp [Token.key, Token.hasPriority, hfree, heptr]
  | wake evt =>
      have h1 := h.setEvent evt [] (by simp) .nil
      have hloose : ∀ t ∈ s.events evt, regive own (.event evt) [] t = .loose := by
        intro t ht
        simp [regive, h.event evt t ht]
      obtain ⟨own', h2⟩ := h1.releaseAll hloose (h.eventNodup evt)
      rw [State.releaseAll_withEvents] at h2
      exact ⟨own', h2⟩
  | setObject o tkn => exact ⟨own, h.quiet (.of_coros rfl)⟩

theorem edits {cd : Option CoroId} {n : TokenId} {nn : Prop} (h : Owned gone s own)
    (he : Edits cd n nn s s') : ∃ own', Owned gone s' own' :=
  he.invariant (I := fun s => ∃ own, Owned gone s own) (fun _ _ ⟨_, h⟩ he => h.edit he) ⟨own, h⟩

/-! ### Transitions -/

/-- The end of a process: what it does to its completion tokens before is free. -/
theorem doReturn (h : Owned gone s own) (c : CoroId) (r : Result P.Value P.Error) :
    ∃ own', Owned gone (s.doReturn c r) own' := by
  have h1 := h.setCompletion c (d := { s.coros c with completionTokens := [], status := .finished })
    (by simp) .nil
  have hloose : ∀ t ∈ (s.coros c).completionTokens,
      regive own (.completion c) [] t = .loose := by
    intro t ht
    simp [regive, h.completion c t ht]
  obtain ⟨own', h2⟩ := h1.releaseAll hloose (h.completionNodup c)
  rw [State.doReturn_eq]
  refine ⟨own', Owned.quiet h2 ?_⟩
  simp only [State.setCoro, State.releaseAll_withCoros]
  exact .of_coros rfl

theorem propagateException (h : Owned gone s own) (c : CoroId) (e : Exn P.Error) :
    Owned gone (s.propagateException c e) own := by
  rw [State.propagateException_eq]
  refine { h with keys := fun u hu => ?_ }
  have hnm : u ∉ (s.coros c).completionTokens := fun hm => by
    have h1 := h.queue u hu
    rw [h.completion c u hm] at h1
    cases h1
  simpa [hnm] using h.keys u hu

/-- A handler that keeps its output token. -/
theorem count (h : Owned gone s own) (i : HandlerId) : Owned gone (s.count i) own := by
  have hsame : ∀ j, ((s.count i).handlers j).completionTkn = (s.handlers j).completionTkn := by
    intro j
    by_cases hj : j = i
    · subst hj; simp [State.count, State.setHandler]
    · simp [State.count, State.setHandler, Function.update_of_ne hj]
  exact { h with
    freshHandler := fun j hle => (hsame j).trans (h.freshHandler j hle)
    output := fun j t ht => h.output j t ((hsame j).symm.trans ht) }

theorem fire (h : Owned gone s own) {i : HandlerId} {t out : TokenId}
    (hout : (s.handlers i).completionTkn = some out) :
    ∃ own', Owned gone (s.fire i t out) own' := by
  have hlt : i < s.nextHandler := Nat.lt_of_not_le fun hle => by
    rw [h.freshHandler i hle] at hout
    cases hout
  have h1 := h.putHandler i { s.handlers i with
    remaining := sizeDecr (s.handlers i).remaining, completionTkn := none } hlt
    (Nat.le_refl _) (by simp)
  have hloose : regive own (.output i) [] out = .loose := by simp [regive, h.output i out hout]
  have h2 := (h1.setToken (t := out) (by simp [hloose]) (s.outputToken out t)).scheduleToken
    (by simpa using hloose)
  exact ⟨_, h2⟩

theorem stepped {t : TokenId} (h : Owned gone s own) (ht : t ∈ s.queue) (hst : Stepped s t s') :
    ∃ own', Owned gone s' own' := by
  have hp := h.pop ht
  cases hst with
  | rethrow hd e =>
      exact ⟨_, (hp.count hd).quiet (.of_coros rfl)⟩
  | fire hd out hh he hout => exact hp.fire hout
  | count hd => exact ⟨_, hp.count hd⟩
  | start c f =>
      have hq : Quiet (s.pop t) { s.pop t with current := some c } := .of_coros rfl
      exact ⟨_, hp.quiet ((hq.trans (.setStatus _ c _)).trans (.of_coros rfl))⟩
  | resume c a k r s1 hh hc hst hr =>
      have hq : Quiet (s.pop t) { s.pop t with current := some c } := .of_coros rfl
      obtain ⟨own', h1⟩ := (hp.quiet hq).edits (awaitResume_edits_of hr : Edits none 0 False _ _)
      have hlog : Quiet s1 (s1.log (.resumed c t (s.pop t).now)) := .of_coros rfl
      exact ⟨own', h1.quiet (hlog.trans (.deliver _ c a.target k r))⟩
  | raise e => exact ⟨_, hp.quiet (.of_coros rfl)⟩
  | skip => exact ⟨_, hp⟩

theorem ran {nn : Prop} {c : CoroId} {act : Action P.User P.Frame P.Value P.Error}
    (h : Owned gone s own) (hr : Ran nn s c act s') : ∃ own', Owned gone s' own' := by
  cases hr with
  | continues s1 _ he hcont =>
      obtain ⟨own', h1⟩ := h.edits he
      exact ⟨own', h1.quiet hcont.quiet⟩
  | throws a k sm s1 _ hact hthrow hm he hcont =>
      obtain ⟨own1, h1⟩ := h.edits hm
      obtain ⟨own2, h2⟩ := h1.edits he
      exact ⟨own2, h2.quiet hcont.quiet⟩
  | suspends a a' k sm s1 hact hm he =>
      obtain ⟨own1, h1⟩ := h.edits hm
      obtain ⟨own2, h2⟩ := h1.edits he
      exact ⟨own2, h2.quiet (.suspend s1 c a' k)⟩
  | returns v =>
      have h1 := h.quiet (.setCoro s c { s.coros c with returnValue := v } rfl rfl)
      exact h1.doReturn c _
  | fails e => exact (h.propagateException c e).doReturn c _

/-- The pending tokens are dropped. -/
theorem reset (h : Owned gone s own) : ∃ own', Owned (gone ++ s.queue) s.reset own' := by
  have hk : ∀ {u o'}, own u = o' → o' ≠ .loose → o' ≠ .queue →
      regive own .queue [] u = o' := regive_keep (by simp)
  refine ⟨regive own .queue [], ?_⟩
  unfold State.reset
  rw [State.destroyAll_eq]
  have hcomp : ∀ c, (if c ∈ s.managed then { s.coros c with status := .finished }
      else s.coros c).completionTokens = (s.coros c).completionTokens := by
    intro c
    split <;> rfl
  exact {
    fresh := fun t hle => hk (h.fresh t hle) (by simp) (by simp)
    freshHandler := h.freshHandler
    queue := fun t ht => by cases ht
    event := fun e t ht => hk (h.event e t ht) (by simp) (by simp)
    completion := fun c t ht => hk (h.completion c t (hcomp c ▸ ht)) (by simp) (by simp)
    output := fun hd t ht => hk (h.output hd t ht) (by simp) (by simp)
    executed := fun t ht => hk (h.executed t ht) (by simp) (by simp)
    queueNodup := .nil
    eventNodup := h.eventNodup
    completionNodup := fun c => by simp only [hcomp]; exact h.completionNodup c
    executedNodup := h.executedNodup
    scheduled := by
      refine h.scheduled.trans ?_
      simpa using (@List.perm_append_comm _ s.executed s.queue).append_left gone
    keys := fun t ht => by cases ht
    ordinary := fun _ t ht => by cases ht }

end Owned

/-- Every transition keeps the owners right. -/
theorem Step.owned {s s' : State P} {l : Label P} (hstep : Step s l s') (hs : s.Tidy False)
    {gone : List TokenId} {own : TokenId → Owner} (h : Owned gone s own) :
    ∃ own' gone', Owned gone' s' own' ∧ (l ≠ .reset → gone' = gone) := by
  have hsame : (∃ own', Owned gone s' own') →
      ∃ own' gone', Owned gone' s' own' ∧ (l ≠ .reset → gone' = gone) :=
    fun ⟨own', h'⟩ => ⟨own', gone, h', fun _ => rfl⟩
  cases hstep with
  | call f o =>
      have he : Edit none 0 False s (s.newCoro (.user (P.start f)) o) :=
        .newCoro _ o (.user f) (by simp)
      exact hsame (h.edit he)
  | bind a =>
      have he : Edits none 0 False s (s.bind a) := bind_call_edits hs a (by simp)
      exact hsame (h.edits he)
  | elsewhere c henv => exact hsame ⟨own, h.quiet (.setCoro s c _ rfl rfl)⟩
  | step t _ htop hst => exact hsame (h.stepped htop.1 (step_stepped hst))
  | advance deadline => exact hsame ⟨own, { h with }⟩
  | exec c _ hex =>
      obtain ⟨f, hst, hran⟩ := exec_ran hs hex fun _ _ hf => hf.elim
      exact hsame (Owned.ran (h.quiet (.of_coros rfl)) hran)
  | reset =>
      obtain ⟨own', h'⟩ := h.reset
      exact ⟨own', _, h', fun hl => absurd rfl hl⟩

end Cxxdes
