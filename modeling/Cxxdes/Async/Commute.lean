-- SUMMARY: Every function of the environment does the same with a shared and with a unique process, as long as the process does not end.
import Cxxdes.Async.Retype

/-!
# Functions on retyped environments

`Retyped v s s'` is kept by the primitive updates, and so by every function of the library: the
awaitable protocol here, the actions of bodies and `step()` at the end.
-/

namespace Cxxdes

variable {P : Program} {v : Retype} {s s' : State P}

/-- Two calls of a function with equal results, in retyped environments. -/
def Retype.Same {α : Type} (v : Retype) (r r' : α × State P) : Prop :=
  r'.1 = r.1 ∧ Retyped v r.2 r'.2

theorem Retype.Same.split {α : Type} {r r' : α × State P} (h : v.Same r r') :
    ∃ x s s', r = (x, s) ∧ r' = (x, s') ∧ Retyped v s s' := by
  obtain ⟨x, s⟩ := r
  obtain ⟨x', s'⟩ := r'
  obtain ⟨rfl, h⟩ := h
  exact ⟨x', s, s', rfl, rfl, h⟩

/-- When the heap is in order after a push. -/
theorem scheduleToken_legal {t : TokenId} : (s.scheduleToken t).legal = true ↔
    s.Heaped ∧ (s.tokens t).hasPriority = false ∧
      ∀ u ∈ s.queue, (s.pushed u).hasPriority = false := by
  simp [State.scheduleToken, State.Heaped, and_assoc]

namespace Retyped

/-! ### Fields -/

section
variable (h : Retyped v s s')
include h

theorem now : s'.now = s.now := by obtain ⟨b, rfl⟩ := h.eq; rfl
theorem nextToken : s'.nextToken = s.nextToken := by obtain ⟨b, rfl⟩ := h.eq; rfl
theorem nextHandler : s'.nextHandler = s.nextHandler := by obtain ⟨b, rfl⟩ := h.eq; rfl
theorem nextCoro : s'.nextCoro = s.nextCoro := by obtain ⟨b, rfl⟩ := h.eq; rfl
theorem nextObject : s'.nextObject = s.nextObject := by obtain ⟨b, rfl⟩ := h.eq; rfl
theorem handlers : s'.handlers = s.handlers := by obtain ⟨b, rfl⟩ := h.eq; rfl
theorem objects : s'.objects = s.objects := by obtain ⟨b, rfl⟩ := h.eq; rfl
theorem movedFrom : s'.movedFrom = s.movedFrom := by obtain ⟨b, rfl⟩ := h.eq; rfl
theorem events : s'.events = s.events := by obtain ⟨b, rfl⟩ := h.eq; rfl
theorem managed : s'.managed = s.managed := by obtain ⟨b, rfl⟩ := h.eq; rfl
theorem current : s'.current = s.current := by obtain ⟨b, rfl⟩ := h.eq; rfl
theorem memory : s'.memory = s.memory := by obtain ⟨b, rfl⟩ := h.eq; rfl
theorem trace : s'.trace = s.trace := by obtain ⟨b, rfl⟩ := h.eq; rfl
theorem coros (c : CoroId) : s'.coros c = (s.coros c).retype v c := by obtain ⟨b, rfl⟩ := h.eq; rfl
theorem tokens (t : TokenId) : s'.tokens t = (s.tokens t).retype v t := by
  obtain ⟨b, rfl⟩ := h.eq; rfl

theorem token {t : TokenId} (ht : v.null ≠ some t) : s'.tokens t = s.tokens t := by
  rw [h.tokens, Token.retype_of_ne _ ht]

theorem env (c : CoroId) : (s'.coros c).env = (s.coros c).env := by rw [h.coros]; simp
theorem status (c : CoroId) : (s'.coros c).status = (s.coros c).status := by rw [h.coros]; simp
theorem void (c : CoroId) : (s'.coros c).void = (s.coros c).void := by rw [h.coros]; simp
theorem priority (c : CoroId) : (s'.coros c).priority = (s.coros c).priority := by
  rw [h.coros]; simp
theorem latency (c : CoroId) : (s'.coros c).latency = (s.coros c).latency := by
  rw [h.coros]; simp
theorem complete (c : CoroId) : (s'.coros c).complete = (s.coros c).complete := by
  rw [h.coros]; simp
theorem value (c : CoroId) : (s'.coros c).returnValue = (s.coros c).returnValue := by
  rw [h.coros]; simp

end

/-! ### Primitive updates -/


theorem setCoro (h : Retyped v s s') (c : CoroId) {d d' : CoroData P} (hd : d' = d.retype v c)
    (hts : ∀ t < s.nextToken, t ∈ d.completionTokens → s.Held t) :
    Retyped v (s.setCoro c d) (s'.setCoro c d') where
  eq := by
    obtain ⟨legal, he⟩ := h.eq
    exact ⟨legal, by rw [he, hd, setCoro_retype]; rfl⟩
  heaps := ⟨h.heaps.heaped, h.heaps.back, h.heaps.legal⟩
  known := h.known.keep (Nat.le_refl _) (Nat.le_refl _) fun t hlt => by
    rintro (hh | ⟨c', hh⟩ | hh)
    · exact .inl hh
    · by_cases hc : c' = c
      · subst hc
        exact hts t hlt (by simpa [State.setCoro] using hh)
      · exact .inr (.inl ⟨c', by simpa [State.setCoro, Function.update_of_ne hc] using hh⟩)
    · exact .inr (.inr hh)

theorem setStatus (h : Retyped v s s') (c : CoroId) (st : Status P) :
    Retyped v (s.setStatus c st) (s'.setStatus c st) :=
  h.setCoro c (by rw [h.coros c]; exact (retype_status_eq _ _ st).symm)
    fun _ _ ht => .inr (.inl ⟨c, ht⟩)

theorem newToken (h : Retyped v s s') (tkn : Token P.Error) :
    Retyped v (s.newToken tkn) (s'.newToken tkn) where
  eq := by
    obtain ⟨legal, he⟩ := h.eq
    exact ⟨legal, by rw [he, newToken_retype s h.known.next]; rfl⟩
  heaps := ⟨h.heaps.heaped, h.heaps.back, h.heaps.legal⟩
  known := h.known.keep (Nat.le_refl _) (Nat.le_succ _) fun _ _ hh => hh

/-- The null token is not an element of the queue of the unique environment. -/
theorem queue (h : Retyped v s s') : s'.queue = s.queue.filter v.keeps := by
  obtain ⟨b, rfl⟩ := h.eq
  rfl

theorem mem_queue (h : Retyped v s s') {u : TokenId} :
    u ∈ s'.queue ↔ u ∈ s.queue ∧ v.null ≠ some u := by
  rw [h.queue, List.mem_filter]
  simp [Retype.keeps]

theorem pushed (h : Retyped v s s') {t : TokenId} (ht : v.null ≠ some t) :
    s'.pushed t = s.pushed t := by
  obtain ⟨b, rfl⟩ := h.eq
  exact if_neg ht

/-- Where the null token is not pending, the queues are the same. -/
theorem queue_same (h : Retyped v s s') (hz : ∀ z, v.null = some z → z ∉ s.queue) :
    s'.queue = s.queue := by
  rw [h.queue]
  exact List.filter_eq_self.mpr fun w hw => Retype.keeps_of_ne fun hn => hz w hn hw

theorem scheduleToken (h : Retyped v s s') {t : TokenId} (ht : v.null ≠ some t) :
    Retyped v (s.scheduleToken t) (s'.scheduleToken t) where
  eq := by
    obtain ⟨legal, he⟩ := h.eq
    exact ⟨_, by rw [he, scheduleToken_retype s ht]⟩
  heaps := by
    have htok : (s'.tokens t).hasPriority = (s.tokens t).hasPriority := by rw [h.token ht]
    have hto : (s.scheduleToken t).legal = true → (s'.scheduleToken t).legal = true := by
      rw [scheduleToken_legal, scheduleToken_legal, htok]
      rintro ⟨hheap, hp, hall⟩
      refine ⟨h.heaps.heaped hheap, hp, fun u hu => ?_⟩
      obtain ⟨hu, hne⟩ := h.mem_queue.mp hu
      rw [h.pushed hne]
      exact hall u hu
    have hback : (∀ z, v.null = some z → z ∉ s.queue) →
        (s'.scheduleToken t).legal = true → (s.scheduleToken t).legal = true := by
      rw [scheduleToken_legal, scheduleToken_legal, htok]
      rintro hz ⟨hheap, hp, hall⟩
      refine ⟨h.heaps.back hz hheap, hp, fun u hu => ?_⟩
      have hne : v.null ≠ some u := fun hn => hz u hn hu
      rw [← h.pushed hne]
      exact hall u (h.mem_queue.mpr ⟨hu, hne⟩)
    have hlen : (s'.scheduleToken t).queue.length ≤ (s.scheduleToken t).queue.length := by
      simpa [State.scheduleToken, h.queue] using List.length_filter_le v.keeps s.queue
    refine ⟨Or.imp hlen.trans hto, fun hz hheap => ?_, fun hnone => ?_⟩
    · have hz' : ∀ z, v.null = some z → z ∉ s.queue := fun z hn hq =>
        hz z hn (List.mem_append_left _ hq)
      refine hheap.imp (fun hl => ?_) (hback hz')
      simpa [State.scheduleToken, h.queue_same hz'] using hl
    · exact Bool.eq_iff_iff.mpr ⟨hback fun z hn => (by rw [hnone] at hn; cases hn), hto⟩
  known := h.known.keep (Nat.le_refl _) (Nat.le_refl _) fun _ _ hh => hh

theorem setToken (h : Retyped v s s') {t : TokenId} (ht : v.null ≠ some t)
    (tkn : Token P.Error) : Retyped v (s.setToken t tkn) (s'.setToken t tkn) where
  eq := by
    obtain ⟨legal, he⟩ := h.eq
    exact ⟨legal, by rw [he, setToken_retype s tkn ht]; rfl⟩
  heaps := ⟨h.heaps.heaped, h.heaps.back, h.heaps.legal⟩
  known := h.known.keep (Nat.le_refl _) (Nat.le_refl _) fun _ _ hh => hh

theorem releaseToken (h : Retyped v s s') {t : TokenId} (ht : v.null ≠ some t) :
    Retyped v (s.releaseToken t) (s'.releaseToken t) := by
  unfold State.releaseToken
  rw [h.token ht, h.now]
  exact (h.setToken ht _).scheduleToken ht

theorem releaseAll (h : Retyped v s s') {ts : List TokenId}
    (hts : ∀ t ∈ ts, v.null ≠ some t) : Retyped v (s.releaseAll ts) (s'.releaseAll ts) := by
  induction ts generalizing s s' with
  | nil => exact h
  | cons t ts ih =>
      exact ih (h.releaseToken (hts t List.mem_cons_self)) fun u hu =>
        hts u (List.mem_cons_of_mem _ hu)

theorem newCoro (h : Retyped v s s') (f : P.Frame) (o : Options) :
    Retyped v (s.newCoro f o) (s'.newCoro f o) where
  eq := by
    obtain ⟨legal, he⟩ := h.eq
    exact ⟨legal, by rw [he, newCoro_retype s h.known.next_coro]; rfl⟩
  heaps := ⟨h.heaps.heaped, h.heaps.back, h.heaps.legal⟩
  known := h.known.keep (Nat.le_succ _) (Nat.le_refl _) fun t hlt => by
    rintro (hh | ⟨c, hh⟩ | hh)
    · exact .inl hh
    · by_cases hc : c = s.nextCoro
      · subst hc
        simp [State.newCoro, CoroData.called] at hh
      · exact .inr (.inl ⟨c, by simpa [State.newCoro, Function.update_of_ne hc] using hh⟩)
    · exact .inr (.inr hh)

theorem newCompletion (h : Retyped v s s') (p : Handle) (cd : Option CoroId) :
    Retyped v (s.newCompletion p cd) (s'.newCompletion p cd) where
  eq := by
    obtain ⟨legal, he⟩ := h.eq
    exact ⟨legal, by rw [he, newCompletion_retype s h.known.next]; rfl⟩
  heaps := ⟨h.heaps.heaped, h.heaps.back, h.heaps.legal⟩
  known := h.known.keep (Nat.le_refl _) (Nat.le_succ _) fun t hlt => by
    rintro (hh | ⟨c, hh⟩ | hh)
    · exact .inl hh
    · refine .inr (.inl ⟨c, ?_⟩)
      by_cases hc : c = p.coro
      · subst hc
        have hne : t ≠ s.nextToken := Nat.ne_of_lt hlt
        simp only [State.newCompletion, State.setCoro, Function.update_self,
          CoroData.completionToken] at hh
        split at hh
        · exact absurd (List.mem_singleton.mp hh) hne
        · exact (List.mem_append.mp hh).resolve_right fun hm => hne (List.mem_singleton.mp hm)
      · simpa [State.newCompletion, State.newToken, State.setCoro, Function.update_of_ne hc]
          using hh
    · exact .inr (.inr hh)

theorem newWaiter (h : Retyped v s s') (evt : EventId) (tkn : Token P.Error) :
    Retyped v (s.newWaiter evt tkn) (s'.newWaiter evt tkn) where
  eq := by
    obtain ⟨legal, hn⟩ := (h.newToken tkn).eq
    unfold State.newWaiter
    exact ⟨legal, by rw [hn, h.events, h.nextToken]; rfl⟩
  heaps := ⟨h.heaps.heaped, h.heaps.back, h.heaps.legal⟩
  known := h.known.keep (Nat.le_refl _) (Nat.le_succ _) fun t hlt => by
    rintro (⟨e, hh⟩ | hh | hh)
    · refine .inl ⟨e, ?_⟩
      by_cases he : e = evt
      · subst he
        have hne : t ≠ s.nextToken := Nat.ne_of_lt hlt
        simp only [State.newWaiter, Function.update_self] at hh
        exact (List.mem_append.mp hh).resolve_right fun hm => hne (List.mem_singleton.mp hm)
      · simpa [State.newWaiter, Function.update_of_ne he] using hh
    · exact .inr (.inl hh)
    · exact .inr (.inr hh)

theorem wake (h : Retyped v s s') (evt : EventId) : Retyped v (s.wake evt) (s'.wake evt) where
  eq := by
    obtain ⟨legal, hr⟩ := (h.releaseAll fun t ht => h.known.unheld (.inl ⟨evt, ht⟩)).eq
    unfold State.wake
    exact ⟨legal, by rw [h.events, hr]; rfl⟩
  heaps := by
    have hr := (h.releaseAll fun t ht => h.known.unheld (.inl ⟨evt, ht⟩)).heaps
    unfold State.wake
    rw [h.events]
    exact ⟨hr.heaped, hr.back, hr.legal⟩
  known := h.known.keep (by simp [State.wake]) (by simp [State.wake]) fun t hlt => by
    rintro (⟨e, hh⟩ | ⟨c, hh⟩ | ⟨i, hh⟩)
    · refine .inl ⟨e, ?_⟩
      by_cases he : e = evt
      · subst he
        simp [State.wake] at hh
      · simpa [State.wake, Function.update_of_ne he] using hh
    · exact .inr (.inl ⟨c, by simpa [State.wake] using hh⟩)
    · exact .inr (.inr ⟨i, by simpa [State.wake] using hh⟩)

theorem newHandler (h : Retyped v s s') (c : Comp) (total : Nat) (cd : Option CoroId) :
    Retyped v (s.newHandler c total cd) (s'.newHandler c total cd) where
  eq := by
    obtain ⟨legal, hn⟩ := (h.newToken ⟨c.latency, c.priority, cd, none, none⟩).eq
    unfold State.newHandler
    exact ⟨legal, by rw [hn, h.handlers, h.nextHandler, h.nextToken]; rfl⟩
  heaps := ⟨h.heaps.heaped, h.heaps.back, h.heaps.legal⟩
  known := h.known.keep (Nat.le_refl _) (Nat.le_succ _) fun t hlt => by
    rintro (hh | hh | ⟨i, hh⟩)
    · exact .inl hh
    · exact .inr (.inl hh)
    · refine .inr (.inr ⟨i, ?_⟩)
      by_cases hi : i = s.nextHandler
      · subst hi
        simp only [State.newHandler, Function.update_self, Option.some.injEq] at hh
        exact absurd hh.symm (Nat.ne_of_lt hlt)
      · simpa [State.newHandler, Function.update_of_ne hi] using hh

theorem install (h : Retyped v s s') (t : TokenId) (i : HandlerId) :
    Retyped v (s.install t i) (s'.install t i) where
  eq := by
    obtain ⟨legal, he⟩ := h.eq
    exact ⟨legal, by rw [he, install_retype]; rfl⟩
  heaps := ⟨h.heaps.heaped, h.heaps.back, h.heaps.legal⟩
  known := h.known.keep (Nat.le_refl _) (Nat.le_refl _) fun _ _ hh => hh

theorem setHandler (h : Retyped v s s') (i : HandlerId) {hd : Handler}
    (hout : ∀ t, hd.completionTkn = some t → (s.handlers i).completionTkn = some t) :
    Retyped v (s.setHandler i hd) (s'.setHandler i hd) where
  eq := by
    obtain ⟨legal, he⟩ := h.eq
    exact ⟨legal, by rw [he]; rfl⟩
  heaps := ⟨h.heaps.heaped, h.heaps.back, h.heaps.legal⟩
  known := h.known.keep (Nat.le_refl _) (Nat.le_refl _) fun t hlt => by
    rintro (hh | hh | ⟨j, hh⟩)
    · exact .inl hh
    · exact .inr (.inl hh)
    · refine .inr (.inr ⟨j, ?_⟩)
      by_cases hj : j = i
      · subst hj
        exact hout t (by simpa [State.setHandler] using hh)
      · simpa [State.setHandler, Function.update_of_ne hj] using hh

theorem setObject (h : Retyped v s s') (o : HandleId) (tkn : Option TokenId) :
    Retyped v (s.setObject o tkn) (s'.setObject o tkn) where
  eq := by
    obtain ⟨legal, he⟩ := h.eq
    exact ⟨legal, by rw [he]; rfl⟩
  heaps := ⟨h.heaps.heaped, h.heaps.back, h.heaps.legal⟩
  known := h.known.keep (Nat.le_refl _) (Nat.le_refl _) fun _ _ hh => hh

theorem newObject (h : Retyped v s s') (p : Handle) :
    Retyped v (s.newObject p) (s'.newObject p) where
  eq := by
    obtain ⟨legal, he⟩ := h.eq
    exact ⟨legal, by rw [he]; rfl⟩
  heaps := ⟨h.heaps.heaped, h.heaps.back, h.heaps.legal⟩
  known := h.known.keep (Nat.le_refl _) (Nat.le_refl _) fun _ _ hh => hh

theorem log (h : Retyped v s s') (o : Obs P.Value P.Error) :
    Retyped v (s.log o) (s'.log o) where
  eq := by
    obtain ⟨legal, he⟩ := h.eq
    exact ⟨legal, by rw [he]; rfl⟩
  heaps := ⟨h.heaps.heaped, h.heaps.back, h.heaps.legal⟩
  known := h.known.keep (Nat.le_refl _) (Nat.le_refl _) fun _ _ hh => hh

theorem withCurrent (h : Retyped v s s') (c : Option CoroId) :
    Retyped v { s with current := c } { s' with current := c } where
  eq := by
    obtain ⟨legal, he⟩ := h.eq
    exact ⟨legal, by rw [he]; rfl⟩
  heaps := ⟨h.heaps.heaped, h.heaps.back, h.heaps.legal⟩
  known := h.known.keep (Nat.le_refl _) (Nat.le_refl _) fun _ _ hh => hh

theorem erase (h : Retyped v s s') (c : CoroId) :
    Retyped v { s with managed := s.managed.erase c, current := none }
      { s' with managed := s'.managed.erase c, current := none } where
  eq := by
    obtain ⟨legal, he⟩ := h.eq
    exact ⟨legal, by rw [he]; rfl⟩
  heaps := ⟨h.heaps.heaped, h.heaps.back, h.heaps.legal⟩
  known := h.known.keep (Nat.le_refl _) (Nat.le_refl _) fun _ _ hh => hh

theorem manage (h : Retyped v s s') (c : CoroId) :
    Retyped v { s with managed := c :: s.managed } { s' with managed := c :: s'.managed } where
  eq := by
    obtain ⟨legal, he⟩ := h.eq
    exact ⟨legal, by rw [he]; rfl⟩
  heaps := ⟨h.heaps.heaped, h.heaps.back, h.heaps.legal⟩
  known := h.known.keep (Nat.le_refl _) (Nat.le_refl _) fun _ _ hh => hh

theorem withMemory (h : Retyped v s s') (m : P.Memory) :
    Retyped v { s with memory := m } { s' with memory := m } where
  eq := by
    obtain ⟨legal, he⟩ := h.eq
    exact ⟨legal, by rw [he]; rfl⟩
  heaps := ⟨h.heaps.heaped, h.heaps.back, h.heaps.legal⟩
  known := h.known.keep (Nat.le_refl _) (Nat.le_refl _) fun _ _ hh => hh

theorem startCoro (h : Retyped v s s') (c : CoroId) (priority : Int) :
    Retyped v (s.startCoro c priority) (s'.startCoro c priority) := by
  have hd : (s'.coros c).started s'.current (resolvePriority (s'.coros c).priority priority)
      s'.nextToken = ((s.coros c).started s.current (resolvePriority (s.coros c).priority priority)
        s.nextToken).retype v c := by
    rw [h.coros, h.current, h.nextToken, retype_priority, retype_started]
  have h1 := h.setCoro c hd fun _ _ ht => .inr (.inl ⟨c, ht⟩)
  have h2 := h1.newToken ⟨s.now + (s.coros c).latency,
    resolvePriority (s.coros c).priority priority, some c, none, none⟩
  have h3 := ((h2.scheduleToken h1.known.next).manage c).log (.bound c s.now)
  unfold State.startCoro
  simp only [h.now, h.nextToken, h.priority, h.latency] at h3 ⊢
  exact h3

/-! ### Functions of the environment -/

theorem bind_ (h : Retyped v s s') (c : CoroId) (priority : Int) :
    v.Same (s.bind_ c priority) (s'.bind_ c priority) := by
  unfold State.bind_
  rw [h.env]
  cases (s.coros c).env with
  | elsewhere => exact ⟨rfl, h⟩
  | here => exact ⟨rfl, h⟩
  | unbound => exact ⟨rfl, h.startCoro c priority⟩

theorem suspendHandle (h : Retyped v s s') (p : Handle) (tkn : Option TokenId)
    (cd : Option CoroId) :
    v.Same (s.suspendHandle p tkn cd) (s'.suspendHandle p tkn cd) := by
  cases tkn with
  | none => exact ⟨by simp only [State.suspendHandle, h.nextToken], h.newCompletion p cd⟩
  | some t => exact ⟨rfl, h⟩

theorem detach (h : Retyped v s s') (p : Handle) (priority : Int) :
    v.Same (s.detach p priority) (s'.detach p priority) := by
  unfold State.detach
  obtain ⟨r, s1, s1', h1, h1', hb⟩ := (h.bind_ p.coro priority).split
  rw [h1, h1']
  cases r with
  | error e => exact ⟨rfl, hb⟩
  | ok u =>
      simp only [hb.complete]
      split
      · exact ⟨rfl, hb⟩
      · exact ⟨rfl, hb.newCompletion p none⟩

theorem checkToken (h : Retyped v s s') (tkn : Option TokenId) :
    s'.checkToken tkn = s.checkToken tkn := by
  have heptr : (fun t => (s'.tokens t).eptr) = fun t => (s.tokens t).eptr := by
    funext t
    rw [h.tokens, Token.retype_eptr]
  unfold State.checkToken
  rw [heptr]

theorem returnValue (h : Retyped v s s') (c : CoroId) : s'.returnValue c = s.returnValue c := by
  unfold State.returnValue
  rw [h.void, h.value]

end Retyped

/-! ### The awaitable protocol -/

theorem toHandle_same (h : Retyped v s s') (a : Awaitable P.User) :
    v.Same (toHandle s a) (toHandle s' a) := by
  cases a with
  | coroutine p tkn => exact ⟨rfl, h⟩
  | ref o => exact ⟨by simp only [toHandle, h.objects], h⟩
  | call | sequential | timeout | wait | wake | async | comp =>
      exact ⟨by simp only [toHandle, h.nextCoro], h.newCoro _ _⟩

mutual
theorem awaitBind_same (priority : Int) (a : Awaitable P.User) {s s' : State P}
    (h : Retyped v s s') : v.Same (awaitBind priority a s) (awaitBind priority a s') := by
  cases a with
  | timeout | wait | wake => exact ⟨rfl, h⟩
  | coroutine p tkn =>
      obtain ⟨r, s1, s1', h1, h1', hb⟩ := (h.bind_ p.coro priority).split
      simp only [awaitBind, h1, h1']
      cases r with
      | error e => exact ⟨rfl, hb⟩
      | ok u => exact ⟨rfl, hb⟩
  | ref o =>
      obtain ⟨r, s1, s1', h1, h1', hb⟩ := (h.bind_ (s.objects o).1.coro priority).split
      simp only [awaitBind, h.objects, h1, h1']
      cases r with
      | error e => exact ⟨rfl, hb⟩
      | ok u => exact ⟨rfl, hb⟩
  | call f o =>
      simp only [awaitBind, h.nextCoro]
      exact ⟨rfl, (h.newCoro _ o).startCoro s.nextCoro priority⟩
  | sequential as o =>
      simp only [awaitBind, h.nextCoro]
      exact ⟨rfl, (h.newCoro _ o).startCoro s.nextCoro priority⟩
  | async a =>
      obtain ⟨p, s1, s1', h1, h1', hh⟩ := (toHandle_same h a).split
      simp only [awaitBind, h1, h1']
      obtain ⟨r, s2, s2', h2, h2', hd⟩ := (hh.detach p priority).split
      simp only [h2, h2']
      cases r with
      | error e => exact ⟨rfl, hd⟩
      | ok u => exact ⟨rfl, hd⟩
  | comp c as =>
      obtain ⟨r, s1, s1', h1, h1', hb⟩ :=
        (awaitBindAll_same (resolvePriority c.priority priority) as h).split
      simp only [awaitBind, h1, h1']
      cases r with
      | error e => exact ⟨rfl, hb⟩
      | ok as => exact ⟨rfl, hb⟩

theorem awaitBindAll_same (priority : Int) (as : List (Awaitable P.User)) {s s' : State P}
    (h : Retyped v s s') : v.Same (awaitBindAll priority as s) (awaitBindAll priority as s') := by
  cases as with
  | nil => exact ⟨rfl, h⟩
  | cons a as =>
      obtain ⟨r, s1, s1', h1, h1', hb⟩ := (awaitBind_same priority a h).split
      simp only [awaitBindAll, h1, h1']
      cases r with
      | error e => exact ⟨rfl, hb⟩
      | ok a =>
          obtain ⟨rs, s2, s2', h2, h2', hbs⟩ := (awaitBindAll_same priority as hb).split
          simp only [h2, h2']
          cases rs with
          | error e => exact ⟨rfl, hbs⟩
          | ok as => exact ⟨rfl, hbs⟩
end

mutual
theorem awaitReady_same (a : Awaitable P.User) {s s' : State P} (h : Retyped v s s') :
    (awaitReady a s').1 = (awaitReady a s).1 ∧
      v.Same (awaitReady a s).2 (awaitReady a s').2 := by
  cases a with
  | timeout relative time priority tkn => exact ⟨by simp only [awaitReady, h.now], rfl, h⟩
  | wait | call | sequential | async => exact ⟨rfl, rfl, h⟩
  | wake evt => exact ⟨rfl, rfl, h.wake evt⟩
  | coroutine p tkn => exact ⟨h.complete p.coro, rfl, h⟩
  | ref o => exact ⟨by simp only [awaitReady, h.objects, h.complete], rfl, h⟩
  | comp c as =>
      obtain ⟨hr, ha, hs⟩ := awaitReadyAll_same as h
      exact ⟨by simp only [awaitReady, hr], by simp only [awaitReady, hr, ha], hs⟩

theorem awaitReadyAll_same (as : List (Awaitable P.User)) {s s' : State P}
    (h : Retyped v s s') :
    (awaitReadyAll as s').1 = (awaitReadyAll as s).1 ∧
      v.Same (awaitReadyAll as s).2 (awaitReadyAll as s').2 := by
  cases as with
  | nil => exact ⟨rfl, rfl, h⟩
  | cons a as =>
      obtain ⟨hr, ha, hs⟩ := awaitReady_same a h
      obtain ⟨hrs, has, hss⟩ := awaitReadyAll_same as hs
      exact ⟨by simp only [awaitReadyAll, hr, hrs], by simp only [awaitReadyAll, ha, has], hss⟩
end

theorem awaitToken_same (h : Retyped v s s') (a : Awaitable P.User) :
    awaitToken s' a = awaitToken s a := by
  cases a with
  | ref o => simp only [awaitToken, h.objects]
  | timeout | wait | wake | coroutine | call | sequential | async | comp => rfl

theorem installOn_same (h : Retyped v s s') (i : HandlerId) (t : Option TokenId) :
    Retyped v (installOn s i t) (installOn s' i t) := by
  cases t with
  | none => exact h
  | some t => exact h.install t i

mutual
theorem awaitSuspend_same (cd : Option CoroId) (a : Awaitable P.User) {s s' : State P}
    (h : Retyped v s s') : v.Same (awaitSuspend cd a s) (awaitSuspend cd a s') := by
  cases a with
  | wake | call | sequential | async => exact ⟨rfl, h⟩
  | timeout relative time priority tkn =>
      simp only [awaitSuspend, h.nextToken, h.now]
      exact ⟨rfl, (h.newToken _).scheduleToken h.known.next⟩
  | wait evt latency priority tkn =>
      simp only [awaitSuspend, h.nextToken]
      exact ⟨rfl, h.newWaiter evt _⟩
  | coroutine p tkn =>
      obtain ⟨r, s1, s1', h1, h1', hb⟩ := (h.suspendHandle p tkn cd).split
      simp only [awaitSuspend, h1, h1']
      cases r with
      | error e => exact ⟨rfl, hb⟩
      | ok t => exact ⟨rfl, hb⟩
  | ref o =>
      obtain ⟨r, s1, s1', h1, h1', hb⟩ :=
        (h.suspendHandle (s.objects o).1 (s.objects o).2 cd).split
      simp only [awaitSuspend, h.objects, h1, h1']
      cases r with
      | error e => exact ⟨rfl, hb⟩
      | ok t => exact ⟨rfl, hb.setObject o (some t)⟩
  | comp c as =>
      obtain ⟨r, s1, s1', h1, h1', hb⟩ := (awaitSuspendAll_same cd s.nextHandler c.ready as
        (h.newHandler c as.length cd)).split
      simp only [awaitSuspend, h.nextHandler, h.nextToken, h1, h1']
      cases r with
      | error e => exact ⟨rfl, hb⟩
      | ok as => exact ⟨rfl, hb⟩

theorem awaitSuspendAll_same (cd : Option CoroId) (i : HandlerId) (ready : List Bool)
    (as : List (Awaitable P.User)) {s s' : State P} (h : Retyped v s s') :
    v.Same (awaitSuspendAll cd i ready as s) (awaitSuspendAll cd i ready as s') := by
  cases as with
  | nil => exact ⟨rfl, h⟩
  | cons a as =>
      simp only [awaitSuspendAll]
      split
      · obtain ⟨r, s1, s1', h1, h1', hb⟩ := (awaitSuspendAll_same cd i ready.tail as h).split
        simp only [h1, h1']
        cases r with
        | error e => exact ⟨rfl, hb⟩
        | ok as => exact ⟨rfl, hb⟩
      · obtain ⟨r, s1, s1', h1, h1', hb⟩ := (awaitSuspend_same cd a h).split
        simp only [h1, h1']
        cases r with
        | error e => exact ⟨rfl, hb⟩
        | ok a =>
            simp only [awaitToken_same hb]
            obtain ⟨rs, s2, s2', h2, h2', hbs⟩ := (awaitSuspendAll_same cd i ready.tail as
              (installOn_same hb i (awaitToken s1 a))).split
            simp only [h2, h2']
            cases rs with
            | error e => exact ⟨rfl, hbs⟩
            | ok as => exact ⟨rfl, hbs⟩
end

mutual
theorem awaitResumeTag_same (a : Awaitable P.User) {s s' : State P} (h : Retyped v s s') :
    v.Same (awaitResumeTag a s) (awaitResumeTag a s') := by
  cases a with
  | coroutine p tkn => exact ⟨h.checkToken tkn, h⟩
  | ref o =>
      simp only [awaitResumeTag, h.objects]
      exact ⟨h.checkToken _, h.setObject o none⟩
  | comp c as => exact awaitResumeAll_same as h
  | timeout | wait | wake | call | sequential | async => exact ⟨rfl, h⟩

theorem awaitResumeAll_same (as : List (Awaitable P.User)) {s s' : State P}
    (h : Retyped v s s') : v.Same (awaitResumeAll as s) (awaitResumeAll as s') := by
  cases as with
  | nil => exact ⟨rfl, h⟩
  | cons a as =>
      obtain ⟨r, s1, s1', h1, h1', hb⟩ := (awaitResumeTag_same a h).split
      simp only [awaitResumeAll, h1, h1']
      cases r with
      | error e => exact ⟨rfl, hb⟩
      | ok u => exact awaitResumeAll_same as hb
end

theorem awaitResume_same (h : Retyped v s s') (a : Awaitable P.User) :
    v.Same (awaitResume a s) (awaitResume a s') := by
  obtain ⟨r, s1, s1', h1, h1', hb⟩ := (awaitResumeTag_same a h).split
  simp only [awaitResume, h1, h1']
  cases r with
  | error e => exact ⟨rfl, hb⟩
  | ok u =>
      cases a with
      | coroutine p tkn => exact ⟨hb.returnValue p.coro, hb⟩
      | async a => cases a <;> exact ⟨rfl, hb⟩
      | timeout | wait | wake | ref | call | sequential | comp => exact ⟨rfl, hb⟩

/-! ### Actions of bodies -/

namespace Retyped

theorem deliver (h : Retyped v s s') (c : CoroId) (target : Option CoroId)
    (k : Result P.Value P.Error → P.Frame) (r : Result P.Value P.Error) :
    Retyped v (s.deliver c target k r) (s'.deliver c target k r) := by
  unfold State.deliver
  rw [h.now]
  exact (h.setStatus c _).log _

theorem suspend (h : Retyped v s s') (c : CoroId) (a : Awaitable P.User)
    (k : Result P.Value P.Error → P.Frame) :
    Retyped v (s.suspend c a k) (s'.suspend c a k) := by
  have h1 := (h.setStatus c (.suspended a k)).withCurrent none
  unfold State.suspend
  rw [h.now]
  cases a with
  | coroutine p tkn =>
      cases tkn with
      | none => exact h1
      | some t => exact h1.log _
  | timeout | wait | wake | ref | call | sequential | async | comp => exact h1

theorem wrap (h : Retyped v s s') (a : Awaitable P.User) : a.wrap s' = a.wrap s := by
  cases a with
  | ref o => simp only [Awaitable.wrap, h.objects]
  | timeout | wait | wake | coroutine | call | sequential | async | comp => rfl

theorem coAwait (h : Retyped v s s') (c : CoroId) (a : Awaitable P.User)
    (k : Result P.Value P.Error → P.Frame) :
    Retyped v (s.coAwait c a k) (s'.coAwait c a k) := by
  unfold State.coAwait
  rw [h.wrap, h.priority]
  obtain ⟨r, s1, s1', h1, h1', hb⟩ :=
    (awaitBind_same (s.coros c).priority (a.wrap s) h).split
  simp only [h1, h1']
  cases r with
  | error e => exact hb.deliver c _ k _
  | ok a1 =>
      obtain ⟨hr, hs⟩ := awaitReady_same a1 hb
      obtain ⟨a2, s2, s2', h2, h2', hr2⟩ := hs.split
      have e1 : awaitReady a1 s1 = ((awaitReady a1 s1).1, a2, s2) := by rw [← h2]
      have e2 : awaitReady a1 s1' = ((awaitReady a1 s1).1, a2, s2') := by rw [← h2', ← hr]
      generalize (awaitReady a1 s1).1 = ready at e1 e2
      simp only [e1, e2]
      cases ready with
      | true =>
          obtain ⟨r, s3, s3', h3, h3', hr3⟩ := (awaitResume_same hr2 a2).split
          simp only [h3, h3']
          exact hr3.deliver c _ k r
      | false =>
          obtain ⟨r, s3, s3', h3, h3', hr3⟩ := (awaitSuspend_same s2.current a2 hr2).split
          simp only [hr2.current, h3, h3']
          cases r with
          | error e => exact hr3.deliver c _ k _
          | ok a3 => exact hr3.suspend c a3 k

theorem moveObject (h : Retyped v s s') (o : HandleId) :
    Retyped v (s.moveObject o) (s'.moveObject o) where
  eq := by
    obtain ⟨legal, he⟩ := h.eq
    exact ⟨legal, by rw [he]; rfl⟩
  heaps := ⟨h.heaps.heaped, h.heaps.back, h.heaps.legal⟩
  known := h.known.keep (Nat.le_refl _) (Nat.le_refl _) fun _ _ hh => hh

theorem takeObject (h : Retyped v s s') (o : HandleId) : s'.takeObject o = s.takeObject o := by
  have hr : ∀ a, (awaitResume a s').1 = (awaitResume a s).1 := fun a => (awaitResume_same h a).1
  unfold State.takeObject
  simp only [h.objects, h.complete, hr]

theorem moveAwait (h : Retyped v s s') (c : CoroId) (o : HandleId)
    (k : Except (Result P.Value P.Error) Handle → P.Frame) :
    Retyped v (s.moveAwait c o k) (s'.moveAwait c o k) := by
  have hm := h.moveObject o
  unfold State.moveAwait
  rw [h.takeObject, h.objects]
  split
  · exact hm.setStatus c _
  · exact hm.deliver c _ _ _

/-- The end of a process with the same completion tokens in both environments. -/
theorem doReturn (h : Retyped v s s') {c : CoroId}
    (hts : (s'.coros c).completionTokens = (s.coros c).completionTokens)
    (r : Result P.Value P.Error) : Retyped v (s.doReturn c r) (s'.doReturn c r) := by
  have hheld : ∀ t ∈ (s.coros c).completionTokens, v.null ≠ some t := fun t ht =>
    h.known.unheld (.inr (.inl ⟨c, ht⟩))
  have h1 := h.releaseAll hheld
  have h2 : Retyped v (s.scheduleCompletion c) (s'.scheduleCompletion c) := by
    unfold State.scheduleCompletion
    rw [hts]
    refine h1.setCoro c (d := { s.coros c with completionTokens := [] }) ?_
      fun _ _ ht => by cases ht
    rw [h.coros c]
    exact (retype_clear _ _).symm
  have h3 := h2.setStatus c .finished
  unfold State.doReturn
  rw [h.now]
  exact (h3.erase c).log _

/-- Another process is the same in both environments. -/
theorem coro_of_ne (h : Retyped v s s') {c : CoroId} (hc : c ≠ v.coro) :
    s'.coros c = s.coros c := by
  rw [h.coros, retype_of_ne _ _ hc]

theorem nullCompletionToken (h : Retyped v s s') {c : CoroId} (hc : c ≠ v.coro) :
    s'.nullCompletionToken c = s.nullCompletionToken c := by
  unfold State.nullCompletionToken
  rw [h.coro_of_ne hc]

theorem propagateException (h : Retyped v s s') {c : CoroId} (hc : c ≠ v.coro)
    (e : Exn P.Error) : Retyped v (s.propagateException c e) (s'.propagateException c e) := by
  have hloop : ∀ (ts : List TokenId) {u u' : State P}, Retyped v u u' →
      Retyped v (ts.foldl (fun s t => s.setToken t { s.tokens t with eptr := some e }) u)
        (ts.foldl (fun s t => s.setToken t { s.tokens t with eptr := some e }) u') := by
    intro ts
    induction ts with
    | nil => exact fun hu => hu
    | cons t ts ih =>
        refine fun {u u'} hu => ih ⟨?_, ?_, ?_⟩
        · obtain ⟨legal, he⟩ := hu.eq
          exact ⟨legal, by rw [he, setEptr_retype u t e]; rfl⟩
        · exact hu.known.keep (Nat.le_refl _) (Nat.le_refl _) fun _ _ hh => hh
        · exact ⟨hu.heaps.heaped, hu.heaps.back, hu.heaps.legal⟩
  unfold State.propagateException
  rw [h.coro_of_ne hc]
  exact hloop _ h

end Retyped

/-- Two calls that may fault: the same fault, or retyped environments. -/
inductive Retype.SameOk (v : Retype) : Except Fault (State P) → Except Fault (State P) → Prop where
  | error (e : Fault) : SameOk v (.error e) (.error e)
  | ok {s s' : State P} (h : Retyped v s s') : SameOk v (.ok s) (.ok s')

namespace Retyped

theorem returnFrom (h : Retyped v s s') {c : CoroId} (hc : c ≠ v.coro) (r : Option P.Value) :
    v.SameOk (s.returnFrom c r) (s'.returnFrom c r) := by
  unfold State.returnFrom
  rw [h.void, h.nullCompletionToken hc]
  split
  · exact .error _
  · split
    · exact .error _
    · have hd : ({ s'.coros c with returnValue := r } : CoroData P) =
          ({ s.coros c with returnValue := r } : CoroData P).retype v c := by
        rw [h.coros c]
        exact (retype_value_eq _ _ r).symm
      have h1 := h.setCoro c hd fun _ _ ht => .inr (.inl ⟨c, ht⟩)
      exact .ok (h1.doReturn (by rw [h1.coro_of_ne hc]) _)

theorem unhandledException (h : Retyped v s s') {c : CoroId} (hc : c ≠ v.coro)
    (e : Exn P.Error) : v.SameOk (s.unhandledException c e) (s'.unhandledException c e) := by
  unfold State.unhandledException
  rw [h.nullCompletionToken hc]
  split
  · exact .error _
  · have h1 := h.propagateException hc e
    exact .ok (h1.doReturn (by rw [h1.coro_of_ne hc]) _)

end Retyped

/-- The action ends the process. -/
def Action.Ends {U φ V E : Type} : Action U φ V E → Prop
  | .coReturn _ => True
  | .throw _ => True
  | _ => False

/-- An action of a body that is not the end of the process of `v`. -/
theorem Retyped.exec (h : Retyped v s s') {c : CoroId}
    (hends : ∀ f, c = v.coro → (s.coros c).status = .running f → ¬ (s.next f).Ends) :
    v.SameOk (s.exec c) (s'.exec c) := by
  have hst := h.status c
  cases hf : (s.coros c).status with
  | initial | suspended | finished =>
      rw [hf] at hst
      unfold State.exec
      rw [hf, hst]
      exact .error _
  | running f =>
      rw [hf] at hst
      have hends := fun hc => hends f hc hf
      have hm := h.withMemory (f.next s.memory s.now).1
      have hnext : f.next s'.memory s'.now = f.next s.memory s.now := by rw [h.memory, h.now]
      rw [State.exec_of_running hf, State.exec_of_running hst, hnext]
      unfold State.next at hends
      cases hact : (f.next s.memory s.now).2 with
      | tau g => exact .ok (hm.setStatus c _)
      | await a k =>
          have hvalid : a.invalid s'.movedFrom = a.invalid s.movedFrom := by rw [h.movedFrom]
          simp only [hvalid]
          split
          · exact .error _
          · exact .ok (hm.coAwait c a k)
      | create g o k =>
          have hk : k ⟨s'.nextCoro, o.retLatency, o.retPriority⟩ =
              k ⟨s.nextCoro, o.retLatency, o.retPriority⟩ := by rw [h.nextCoro]
          simp only [hk]
          exact .ok ((hm.newCoro _ o).setStatus c _)
      | declare p k =>
          have hk : k s'.nextObject = k s.nextObject := by rw [h.nextObject]
          simp only [hk]
          exact .ok ((hm.newObject p).setStatus c _)
      | move o k =>
          simp only [congrFun h.movedFrom o]
          split
          · exact .error _
          · exact .ok (hm.moveAwait c o k)
      | bind p k =>
          obtain ⟨r, s1, s1', h1, h1', hd⟩ := (hm.detach p 0).split
          simp only [h1, h1']
          cases r with
          | error e => exact .ok (hd.setStatus c _)
          | ok u => exact .ok (hd.setStatus c _)
      | coReturn r =>
          exact hm.returnFrom (fun hc => hends hc (by rw [hact]; trivial)) r
      | throw e =>
          exact hm.unhandledException (fun hc => hends hc (by rw [hact]; trivial)) e

/-! ### step -/

namespace Retyped

theorem pop (h : Retyped v s s') {t : TokenId} (ht : v.null ≠ some t) :
    Retyped v (s.pop t) (s'.pop t) where
  eq := by
    have hq : (s.queue.erase t).filter v.keeps = (s.queue.filter v.keeps).erase t :=
      List.erase_filter.symm
    have he : (s.executed ++ [t]).filter v.keeps = s.executed.filter v.keeps ++ [t] := by
      rw [List.filter_append, List.filter_singleton, Retype.keeps_of_ne ht]
      rfl
    have hnow : max (s'.tokens t).time s'.now = max (s.tokens t).time s.now := by
      rw [h.token ht, h.now]
    obtain ⟨legal, hs⟩ := h.eq
    refine ⟨legal, ?_⟩
    unfold State.pop
    rw [hnow, hs]
    simp only [State.withLegal, State.retype, hq, he]
  heaps := by
    have hlen : (s'.pop t).queue.length ≤ (s.pop t).queue.length := by
      simpa [State.pop, h.queue, ← List.erase_filter] using
        List.length_filter_le v.keeps (s.queue.erase t)
    refine ⟨fun hheap => ?_, fun hz hheap => ?_, h.heaps.legal⟩
    · rcases hheap with hl | hl
      · exact .inl (hlen.trans hl)
      · exact (h.heaps.heaped (.inr hl)).imp ((List.length_erase_le).trans ·) id
    · have hz' : ∀ z, v.null = some z → z ∉ s.queue := by
        intro z hn hq
        have hne : z ≠ t := by
          rintro rfl
          exact ht hn
        exact hz z hn ((List.mem_erase_of_ne hne).mpr hq)
      rcases hheap with hl | hl
      · exact .inl (by simpa [State.pop, h.queue_same hz'] using hl)
      · exact (h.heaps.back hz' (.inr hl)).imp ((List.length_erase_le).trans ·) id
  known := h.known.keep (Nat.le_refl _) (Nat.le_refl _) fun _ _ hh => hh

theorem invoke (h : Retyped v s s') (i : HandlerId) {t : TokenId} (ht : v.null ≠ some t) :
    v.Same (s.invoke i t) (s'.invoke i t) := by
  unfold State.invoke
  simp only [h.token ht, h.handlers]
  cases (s.tokens t).eptr with
  | some e => exact ⟨rfl, h.setHandler i fun _ hout => hout⟩
  | none =>
      cases hout : (s.handlers i).completionTkn with
      | none => exact ⟨rfl, h.setHandler i fun _ hnone => by cases hnone⟩
      | some out =>
          have hne : v.null ≠ some out := h.known.unheld (.inr (.inr ⟨i, hout⟩))
          have htok : s'.outputToken out t = s.outputToken out t := by
            unfold State.outputToken
            rw [h.token ht, h.token hne]
          simp only [htok]
          split
          · refine ⟨rfl, Retyped.scheduleToken (.setToken (h.setHandler i ?_) hne _) hne⟩
            exact fun _ hnone => by cases hnone
          · exact ⟨rfl, h.setHandler i fun _ hsome => hout.trans hsome⟩

theorem resume (h : Retyped v s s') (c : CoroId) (t : TokenId) :
    v.SameOk (s.resume c t) (s'.resume c t) := by
  unfold State.resume
  rw [h.status]
  cases (s.coros c).status with
  | initial f =>
      simp only [h.now]
      exact .ok ((h.setStatus c _).log _)
  | suspended a k =>
      obtain ⟨r, s1, s1', h1, h1', hr⟩ := (awaitResume_same h a).split
      simp only [h1, h1', h.now]
      exact .ok ((hr.log _).deliver c a.target k r)
  | running f => exact .error _
  | finished => exact .error _

/-- A token that is not the null token. -/
theorem step (h : Retyped v s s') {t : TokenId} (ht : v.null ≠ some t) :
    v.SameOk (s.step t) (s'.step t) := by
  have hp := h.pop ht
  unfold State.step
  simp only [hp.token ht]
  cases ((s.pop t).tokens t).handler with
  | some i =>
      obtain ⟨r, s1, s1', h1, h1', hi⟩ := (hp.invoke i ht).split
      simp only [h1, h1']
      cases r with
      | none => exact .ok hi
      | some e =>
          simp only [hi.now]
          exact .ok (hi.log _)
  | none =>
      cases ((s.pop t).tokens t).coroData with
      | some c => exact (hp.withCurrent (some c)).resume c t
      | none =>
          cases ((s.pop t).tokens t).eptr with
          | some e =>
              simp only [hp.now]
              exact .ok (hp.log _)
          | none => exact .ok hp

/-! ### Calls of the program that owns the environment -/

theorem destroyAll (h : Retyped v s s') (cs : List CoroId) :
    Retyped v (s.destroyAll cs) (s'.destroyAll cs) := by
  induction cs generalizing s s' with
  | nil => exact h
  | cons c cs ih =>
      simp only [State.destroyAll, List.foldl_cons, h.complete]
      split
      · exact ih h
      · exact ih (h.setStatus c .finished)

theorem reset (h : Retyped v s s') : Retyped v s.reset s'.reset := by
  have hd := h.destroyAll s.managed
  unfold State.reset
  rw [h.managed]
  obtain ⟨legal, he⟩ := hd.eq
  exact ⟨⟨legal, by rw [he]; rfl⟩, hd.known.keep (Nat.le_refl _) (Nat.le_refl _) fun _ _ hh => hh,
    fun _ => .inl (Nat.zero_le _), fun _ _ => .inl (Nat.zero_le _), hd.heaps.legal⟩

theorem bind (h : Retyped v s s') (a : Awaitable P.User) :
    Retyped v (s.bind a) (s'.bind a) := by
  obtain ⟨p, s1, s1', h1, h1', hh⟩ := (toHandle_same h a).split
  unfold State.bind
  rw [h1, h1']
  exact (hh.detach p 0).2

theorem elsewhere (h : Retyped v s s') (c : CoroId) :
    Retyped v (s.setCoro c { s.coros c with env := .elsewhere })
      (s'.setCoro c { s'.coros c with env := .elsewhere }) := by
  refine h.setCoro c ?_ fun _ _ ht => .inr (.inl ⟨c, ht⟩)
  rw [h.coros c]
  exact (retype_env_eq _ _ .elsewhere).symm

theorem advance (h : Retyped v s s') (deadline : Int) :
    Retyped v { s with now := max s.now deadline } { s' with now := max s'.now deadline } where
  eq := by
    obtain ⟨legal, he⟩ := h.eq
    exact ⟨legal, by rw [he]; rfl⟩
  heaps := ⟨h.heaps.heaped, h.heaps.back, h.heaps.legal⟩
  known := h.known.keep (Nat.le_refl _) (Nat.le_refl _) fun _ _ hh => hh

end Retyped

end Cxxdes
