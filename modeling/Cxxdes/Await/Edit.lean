-- SUMMARY: The primitive edits that awaiting makes to an environment, with what their caller guarantees.
import Cxxdes.Core.Environment

/-!
# Edits

The await functions change the environment only through a few primitive updates.
`Edit cd n nn s s'` is one of them: the tokens it creates name `cd` or nobody (or
are the start token of a process), only tokens from `n` on get a handler, and
under `nn` no latency is negative. Invariants are proved per edit and then hold
for every awaitable.
-/

namespace Cxxdes

variable {P : Program}

/-! ### Non-negative latencies -/

mutual
/-- No delay or latency of the awaitable is negative. The awaitables of a
`sequential` and of an `async` are awaited by another process, later. -/
def Awaitable.NonNeg {U : Type} : Awaitable U → Prop
  | .timeout relative time _ _ => relative = true → 0 ≤ time
  | .wait _ latency _ _ => 0 ≤ latency
  | .coroutine p _ => 0 ≤ p.retLatency
  | .call _ o => 0 ≤ o.latency ∧ 0 ≤ o.retLatency
  | .sequential _ o => 0 ≤ o.latency ∧ 0 ≤ o.retLatency
  | .async a => a.NonNeg
  | .comp c as => 0 ≤ c.latency ∧ NonNegAll as
  | _ => True

def Awaitable.NonNegAll {U : Type} : List (Awaitable U) → Prop
  | [] => True
  | a :: as => a.NonNeg ∧ NonNegAll as
end

/-- The frame of a coroutine that has just been called. -/
inductive Frame.Starts : P.Frame → Prop where
  | user (u : P.User) : Starts (.user (P.start u))
  | seq (as : List (Awaitable P.User)) : Starts (.seq as)

/-! ### Edits -/

inductive Edit (cd : Option CoroId) (n : TokenId) (nn : Prop) (s : State P) : State P → Prop where
  | newCoro (f : P.Frame) (o : Options) (hf : f.Starts) (hlat : nn → 0 ≤ o.latency) :
      Edit cd n nn s (s.newCoro f o)
  | startCoro (c : CoroId) (priority : Int) (henv : (s.coros c).env = .unbound) :
      Edit cd n nn s (s.startCoro c priority)
  | newCompletion (p : Handle) (cd' : Option CoroId) (hcd : cd' = none ∨ cd' = cd)
      (henv : (s.coros p.coro).env = .here) (hinc : (s.coros p.coro).complete = false)
      (hlat : nn → 0 ≤ p.retLatency) :
      Edit cd n nn s (s.newCompletion p cd')
  | timeout (time priority : Int) (hlat : nn → s.now ≤ time) :
      Edit cd n nn s ((s.newToken ⟨time, priority, cd, none, none⟩).scheduleToken s.nextToken)
  | newWaiter (evt : EventId) (latency priority : Int) (hlat : nn → 0 ≤ latency) :
      Edit cd n nn s (s.newWaiter evt ⟨latency, priority, cd, none, none⟩)
  | newHandler (c : Comp) (total : Nat) (hlat : nn → 0 ≤ c.latency) :
      Edit cd n nn s (s.newHandler c total cd)
  | install (t : TokenId) (h : HandlerId) (hn : n ≤ t) (ht : t < s.nextToken)
      (hh : h < s.nextHandler) (hfree : (s.tokens t).handler = none)
      (heptr : (s.tokens t).eptr = none)
      (hout : ∀ out, (s.handlers h).completionTkn = some out →
        (s.tokens out).coroData = (s.tokens t).coroData) :
      Edit cd n nn s (s.install t h)
  | wake (evt : EventId) : Edit cd n nn s (s.wake evt)
  | setObject (h : HandleId) (tkn : Option TokenId)
      (htkn : ∀ t, tkn = some t → t ∈ (s.coros (s.objects h).1.coro).completionTokens ∧
        (s.coros (s.objects h).1.coro).env = .here ∧
        (s.coros (s.objects h).1.coro).complete = false ∧ (s.tokens t).eptr = none) :
      Edit cd n nn s (s.setObject h tkn)

abbrev Edits (cd : Option CoroId) (n : TokenId) (nn : Prop) : State P → State P → Prop :=
  Relation.ReflTransGen (Edit cd n nn)

variable {cd : Option CoroId} {n : TokenId} {nn : Prop} {s s' : State P}

/-- An invariant of every edit is an invariant of a chain of edits. -/
theorem Edits.invariant {I : State P → Prop}
    (hI : ∀ s s', I s → Edit cd n nn s s' → I s') (h : Edits cd n nn s s') (hs : I s) :
    I s' := by
  induction h with
  | refl => exact hs
  | tail _ he ih => exact hI _ _ ih he

/-- Handlers on later tokens only is the stronger guarantee. -/
theorem Edit.mono {m : TokenId} (hm : m ≤ n) (h : Edit cd n nn s s') : Edit cd m nn s s' := by
  cases h with
  | newCoro f o hf hlat => exact .newCoro f o hf hlat
  | startCoro c priority henv => exact .startCoro c priority henv
  | newCompletion p cd' hcd henv hinc hlat => exact .newCompletion p cd' hcd henv hinc hlat
  | timeout time priority hlat => exact .timeout time priority hlat
  | newWaiter evt latency priority hlat => exact .newWaiter evt latency priority hlat
  | newHandler c total hlat => exact .newHandler c total hlat
  | install t h hn ht hh hfree heptr hout =>
      exact .install t h (Nat.le_trans hm hn) ht hh hfree heptr hout
  | wake evt => exact .wake evt
  | setObject h tkn htkn => exact .setObject h tkn htkn

theorem Edits.mono {m : TokenId} (hm : m ≤ n) (h : Edits cd n nn s s') : Edits cd m nn s s' :=
  Relation.ReflTransGen.mono (fun _ _ he => he.mono hm) _ _ h

end Cxxdes
