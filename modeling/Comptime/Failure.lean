/-!
# Failures and broken contracts

An operation ends without a result in one of two ways. It may *fail*: the program it works on is at fault, and a
`Failure` says why and in which context. Or it may *abort*: it was called outside its contract, and an `Abort` says
what was broken. The two never mix: a failure is reported to whoever asked, an abort stops everything around it.
-/

/-- Two computations, one after the other, have a result if both have. -/
theorem Except.bind_eq_ok {ε α β : Type} {x : Except ε α} {f : α → Except ε β} {b : β} :
    (x >>= f) = .ok b ↔ ∃ a, x = .ok a ∧ f a = .ok b := by
  cases x with
  | error e => exact ⟨nofun, nofun⟩
  | ok a => exact ⟨fun h => ⟨a, rfl, h⟩, fun ⟨_, hx, h⟩ => by cases hx; exact h⟩

namespace Comptime

/-- Causes that callers tell apart, whatever context has been put around them. -/
inductive Cause where
  | deadlock
  | failed
  | cycle
  | dependency
  | yield
  | injected
  | unsupported
  | trap
deriving DecidableEq, Repr

def Cause.text : Cause → String
  | deadlock => "internal error: scheduler deadlock"
  | failed => "compilation failed"
  | cycle => "dependency cycle"
  | dependency => "dependency failed"
  | yield => "yield"
  | injected => "injected failure"
  | unsupported => "unsupported"
  | trap => "trap"

/-- A chain of contexts that ends in a known cause or in a plain description. -/
inductive Failure where
  | known (cause : Cause)
  | plain (text : String)
  | within (context : String) (inner : Failure)
deriving DecidableEq, Repr

namespace Failure

/-- The contexts are written outermost first. -/
def message : Failure → String
  | known c => c.text
  | plain t => t
  | within t f => t ++ ": " ++ f.message

/-- The known cause at the end of the chain, if there is one. -/
def cause? : Failure → Option Cause
  | known c => some c
  | plain _ => none
  | within _ f => f.cause?

def isCause (f : Failure) (c : Cause) : Bool := f.cause? == some c

@[simp] theorem cause?_within (t : String) (f : Failure) : (within t f).cause? = f.cause? := rfl

@[simp] theorem isCause_within (t : String) (f : Failure) (c : Cause) :
    (within t f).isCause c = f.isCause c := rfl

end Failure

/-- How an operation was called outside its contract. -/
inductive Abort where
  /-- A missing entry, a missing node, or a division by zero that nobody checked for. -/
  | fault
  /-- A broken rule between two parts of the library, described. -/
  | bug (text : String)
  /-- An argument the operation does not take, described if there is anything to say. -/
  | refused (text : Option String)
deriving DecidableEq, Repr

/-- Why an operation gave no result. -/
inductive Stop where
  | failed (f : Failure)
  | aborted (a : Abort)
deriving DecidableEq, Repr

end Comptime
