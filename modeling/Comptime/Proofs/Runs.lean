import Comptime.Proofs.Compile.Discipline
import Comptime.Proofs.Plan.Handler

/-!
# Runs end

A run with fair handlers ends within a number of rounds that is quadratic in the number of entities, and not in a
deadlock. The handlers of plans are fair, and those of compilations are disciplined.
-/

namespace Comptime

open Scheduler

/--
**Runs end.** Whatever nodes are registered and whatever phases have a handler, if the handlers are fair then a run ends
within `6 * n + 4 * n * n` rounds for `n` nodes. It does not end in a deadlock: every entity is finished or has failed, and
the result tells whether any has. The handler of a plan that `validate` accepts is fair. The handler of a compilation acts
by requirements only, and yields only if one of them is to be waited for, whenever the plan of its checker is accepted.
-/
theorem run_ends :
    (∀ (ν σ : Type) [BEq ν] [ToString ν] (nodes : List ν) (s : Scheduler ν) (handled : List Phase)
        (handle : Handler ν σ) (ok : σ → Prop) (own : σ),
      ofNodes nodes = .ok s → Fair handle nodes ok → ok own →
      ∃ r w, repeatRounds handle ⟨{ s with handled }, own⟩ = some (.ok r w) ∧
        (run handle).run ⟨{ s with handled }, own⟩ = .ok r w ∧
        w.scheduler.rounds ≤ 6 * nodes.length + 4 * nodes.length * nodes.length ∧
        (∀ f, r = .error f → f.isCause .deadlock = false) ∧
        (∀ i < nodes.length, (w.pool.entity i).failed = true ∨
          ((w.pool.entity i).failed = false ∧ (w.pool.entity i).phase = .run)) ∧
        ((∀ i < nodes.length, (w.pool.entity i).failed = false) → r = .ok ()) ∧
        ((∃ i < nodes.length, (w.pool.entity i).failed = true) → ∃ f, r = .error f ∧ f.isCause .failed = true)) ∧
    (∀ p : Plan, p.validate = .ok () → Fair p.handler p.names fun _ => True) ∧
    (∀ (options : Compile.Options) (decls : List Decl),
      (∀ c, options.checker = some c → c.plan.validate = .ok ()) →
      ∀ (p : Phase) (id : Nat) (w : World Nat Compile.State), id < w.pool.size →
        Disciplined (Compile.handler options decls) p id w) := by
  refine ⟨?_, fun p hValid => Plan.fair_handler (Plan.valid_of_validate hValid), ?_⟩
  · intro ν σ _ _ nodes s handled handle ok own hNodes hFair hOwn
    exact run_of_fair hNodes handled hFair hOwn
  · intro options decls hChecker p id w hId
    refine Compile.disciplined_handler decls (fun c hc i hi n hn => ?_) p hId
    exact ((Plan.valid_of_validate (hChecker c hc)).needs i hi n hn).phase.2

/-- Two items of a plan that wait for each other. -/
def mutualPlan : Plan where
  items := [
    { name := "a", needs := [{ raised := .typeChecked, target := "b", phase := .typeChecked }] },
    { name := "b", needs := [{ raised := .typeChecked, target := "a", phase := .typeChecked }] }]

theorem run_ends_mutualPlan : mutualPlan.validate = .ok () ∧ ofNodes mutualPlan.names = .ok (arrived mutualPlan.names) ∧
    ∃ r w, (run mutualPlan.handler).run ⟨{ arrived mutualPlan.names with handled := Phase.handled }, #[0, 0]⟩ = .ok r w ∧
      w.scheduler.rounds ≤ 28 ∧ ∀ f, r = .error f → f.isCause .deadlock = false := by
  have hNodes : ofNodes mutualPlan.names = .ok (arrived mutualPlan.names) := ofNodes_of_nodup (by decide)
  obtain ⟨r, w, -, hRun, hRounds, hDeadlock, -⟩ := run_ends.1 String (Array Nat) mutualPlan.names _ Phase.handled
    mutualPlan.handler _ #[0, 0] hNodes (run_ends.2.1 mutualPlan (by decide)) True.intro
  exact ⟨by decide, hNodes, r, w, hRun, hRounds, hDeadlock⟩

end Comptime
