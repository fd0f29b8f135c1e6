import Comptime.Proofs.Lowering.Procedure

/-!
# Requests for registers

What is handed out after the entry of a procedure is free, whatever is asked for and in whatever order (`enter_fresh`).
Requests are logged with what came of them, and `Registers.Logs` says what the log has to do with the registers: what was
handed out lies below the highest one, what is permanent is kept, and what was handed out since registers were taken back is
not free.
-/

namespace Comptime

open List

/-- What lowering asks of the registers. -/
inductive Request where
  | temporary
  | permanent
  | endStmt
  | holding (inner : List Request)

/-- What a request came to, with the registers before and after it. -/
inductive Grant where
  | temporary (r : Reg) (before after : Registers)
  | permanent (r : Reg) (before after : Registers)
  /-- Registers have been taken back. -/
  | reclaimed
deriving DecidableEq

namespace Grant

def temporary? : Grant → Option Reg
  | temporary r _ _ => some r
  | _ => none

def permanent? : Grant → Option Reg
  | permanent r _ _ => some r
  | _ => none

/-- What was handed out since registers were taken back, given a log with the last grant first. -/
def recent (log : List Grant) : List Reg := (log.takeWhile (· ≠ .reclaimed)).filterMap temporary?

/-- A grant that follows those of a log which begins at the registers `start`. A temporary register is the first from the
free ones on that is not permanent, and has not been handed out since registers were taken back. A permanent one has
never been used. -/
def Fresh (start : Registers) (log : List Grant) : Grant → Prop
  | temporary r s s' => ∃ n : Nat, r = n ∧ s.permanent.FirstClear s.next n ∧ n < s'.high ∧ r ∉ log.filterMap permanent? ∧
      r ∉ recent log
  | permanent r _ s' => ∃ n : Nat, r = n ∧ s'.Keeps n ∧ n < s'.high ∧ start.high ≤ n ∧ r ∉ log.filterMap permanent? ∧
      r ∉ log.filterMap temporary?
  | reclaimed => True

end Grant

namespace Build

mutual

/-- Meets a request, and logs what came of it. -/
def serve : Request → List Grant → Build (List Grant)
  | .temporary, log => do
    let before := (← get).regs
    let r ← allocReg
    return .temporary r before (← get).regs :: log
  | .permanent, log => do
    let before := (← get).regs
    let r ← allocPermanent
    return .permanent r before (← get).regs :: log
  | .endStmt, log => do
    let held := (← get).regs.hold
    reclaim
    return if held = 0 then .reclaimed :: log else log
  | .holding inner, log => holding (serveAll inner log)

def serveAll : List Request → List Grant → Build (List Grant)
  | [], log => pure log
  | x :: xs, log => do serveAll xs (← serve x log)

end

end Build

namespace Registers

open Grant

/-- The log begins at `start` and ends at `s`. -/
structure Logs (start s : Registers) (log : List Grant) : Prop extends Sound s where
  high : start.high ≤ s.high
  permanent : ∀ n : Nat, (n : Reg) ∈ log.filterMap permanent? → s.Keeps n
  temporary : ∀ n : Nat, (n : Reg) ∈ log.filterMap temporary? → n < s.high
  recent : ∀ n : Nat, (n : Reg) ∈ recent log → n < s.next
  fresh : ∀ g before, g :: before <:+ log → g.Fresh start before

namespace Logs

variable {start s s' : Registers} {log : List Grant} {g : Grant}

theorem nil (hs : s.Sound) : Logs s s [] where
  toSound := hs
  high := le_rfl
  permanent _ hn := by cases hn
  temporary _ hn := by cases hn
  recent _ hn := by cases hn
  fresh _ _ hSuffix := by cases suffix_nil.mp hSuffix

variable (h : Logs start s log)

include h

/-- The grants before a new one stay fresh. -/
theorem fresh_cons (hg : g.Fresh start log) (g' : Grant) (before : List Grant)
    (hSuffix : g' :: before <:+ g :: log) : g'.Fresh start before := by
  rcases suffix_cons_iff.mp hSuffix with hEq | hSuffix
  · cases hEq
    exact hg
  · exact h.fresh g' before hSuffix

theorem alloc : Logs start s.alloc.1 (.temporary s.alloc.2 s s.alloc.1 :: log) := by
  obtain ⟨hLe, hFree⟩ := s.alloc_free
  have hGrows : Grows s s.alloc.1 := grows_alloc
  refine ⟨h.toSound.alloc, h.high.trans hGrows.high, h.permanent, fun n hn => ?_, fun n hn => ?_, h.fresh_cons ?_⟩
  · rcases mem_cons.mp hn with hEq | hn
    · cases hEq
      exact s.alloc_lt_high
    · exact (h.temporary n hn).trans_le hGrows.high
  · rcases mem_cons.mp hn with hEq | hn
    · cases hEq
      exact Nat.lt_succ_self _
    · exact ((h.recent n hn).trans_le hLe).trans (Nat.lt_succ_self _)
  · exact ⟨_, rfl, s.permanent.nextClear_spec, s.alloc_lt_high, fun hMem => hFree (h.permanent _ hMem),
      fun hMem => Nat.not_lt.mpr hLe (h.recent _ hMem)⟩

theorem allocPermanent :
    Logs start s.allocPermanent.1 (.permanent s.allocPermanent.2 s s.allocPermanent.1 :: log) := by
  have hGrows : Grows s s.allocPermanent.1 := grows_allocPermanent
  have hKept : s.allocPermanent.1.Keeps s.high := keeps_allocPermanent.mpr (.inl rfl)
  refine ⟨h.toSound.allocPermanent, h.high.trans hGrows.high, fun n hn => ?_, fun n hn => (h.temporary n hn).trans_le hGrows.high,
    h.recent, h.fresh_cons ?_⟩
  · rcases mem_cons.mp hn with hEq | hn
    · cases hEq
      exact hKept
    · exact hGrows.keeps n (h.permanent n hn)
  · exact ⟨_, rfl, hKept, Nat.lt_succ_self _, h.high, fun hMem => Nat.lt_irrefl _ (h.lt_high _ (h.permanent _ hMem)),
      fun hMem => Nat.lt_irrefl _ (h.temporary _ hMem)⟩

/-- When registers are taken back nothing is recent any more. -/
theorem reclaim : Logs start s.reclaim (.reclaimed :: log) where
  toSound := h.toSound.reclaim
  high := high_reclaim.symm ▸ h.high
  permanent n hn := grows_reclaim.keeps n (h.permanent n hn)
  temporary n hn := high_reclaim.symm ▸ h.temporary n hn
  recent n hn := by cases hn
  fresh := h.fresh_cons trivial

theorem held (n : Nat) : Logs start { s with hold := n } log :=
  { h with toSound := h.toSound.held }

end Logs

end Registers

namespace Build

mutual

theorem serve_logs {start : Registers} {log : List Grant} {b : Builder} (x : Request) (h : start.Logs b.regs log) :
    ∃ log' b', serve x log b = .ok log' b' ∧ start.Logs b'.regs log' := by
  cases x with
  | temporary => exact ⟨_, _, rfl, h.alloc⟩
  | permanent => exact ⟨_, _, rfl, h.allocPermanent⟩
  | endStmt =>
    refine ⟨_, _, rfl, ?_⟩
    split
    · exact h.reclaim
    · next hHold =>
      change start.Logs b.regs.reclaim log
      rw [Registers.reclaim_of_hold hHold]
      exact h
  | holding inner =>
    obtain ⟨log', b1, hRun, hLogs⟩ := serveAll_logs (b := { b with regs := { b.regs with hold := b.regs.hold + 1 } })
      inner (h.held _)
    refine ⟨log', { b1 with regs := { b1.regs with hold := b1.regs.hold - 1 } }, ?_, hLogs.held _⟩
    rw [serve, holding, modify_bind, bind_apply, hRun]
    rfl

theorem serveAll_logs {start : Registers} {log : List Grant} {b : Builder} (xs : List Request) (h : start.Logs b.regs log) :
    ∃ log' b', serveAll xs log b = .ok log' b' ∧ start.Logs b'.regs log' := by
  cases xs with
  | nil => exact ⟨log, b, rfl, h⟩
  | cons x xs =>
    obtain ⟨log1, b1, hRun, hLogs⟩ := serve_logs x h
    obtain ⟨log2, b2, hRun', hLogs'⟩ := serveAll_logs xs hLogs
    refine ⟨log2, b2, ?_, hLogs'⟩
    rw [serveAll, bind_apply, hRun]
    exact hRun'

end

/-- **What is handed out is free.** After the entry of a procedure every request is met, with statements held in any
nesting, and every grant is fresh after those before it. -/
theorem enter_fresh {config : Config} {sig : Sig} {params : List Variable} {b : Builder}
    (hEnter : enter params { config, sig } = .ok () b) (xs : List Request) :
    ∃ log b', serveAll xs [] b = .ok log b' ∧ ∀ g before, g :: before <:+ log → g.Fresh b.regs before := by
  have hSound : b.regs.Sound := (Builder.enter_entered hEnter).ready.closed.sound.regs
  obtain ⟨log, b', hRun, hLogs⟩ := serveAll_logs xs (.nil hSound)
  exact ⟨log, b', hRun, hLogs.fresh⟩

/-- A result and a parameter that stay behind pointers. -/
def pointing : Sig :=
  ⟨[⟨0, .int 64 true⟩], [⟨.indirect, .int 64 true, .ptr⟩], ⟨.ignore, .int 64 true, .void⟩, [.int 64 true]⟩

/-- Where its body begins: both pointers are kept. -/
def pointed : Builder :=
  { config := {}, sig := pointing, regs := (((Registers.ofParams 2).keep 0).keep 1).reclaim, outs := [(0, 0)] }

/-- The end of a statement does nothing while it is held, and the register that became permanent is passed over. -/
theorem pointed_fresh : enter [] { config := {}, sig := pointing } = .ok () pointed ∧
    ∃ log b', serveAll [.temporary, .permanent, .holding [.endStmt, .temporary], .endStmt, .temporary] [] pointed = .ok log b' ∧
      log.filterMap Grant.temporary? = [2, 4, 2] ∧ log.filterMap Grant.permanent? = [3] ∧
      ∀ g before, g :: before <:+ log → g.Fresh pointed.regs before := by
  have hEnter : enter [] { config := {}, sig := pointing } = .ok () pointed := rfl
  obtain ⟨log, b', hRun, hFresh⟩ :=
    enter_fresh hEnter [.temporary, .permanent, .holding [.endStmt, .temporary], .endStmt, .temporary]
  refine ⟨hEnter, log, b', hRun, ?_, ?_, hFresh⟩
  · cases hRun
    decide +kernel
  · cases hRun
    decide +kernel

end Build

end Comptime
