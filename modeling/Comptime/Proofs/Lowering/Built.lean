import Comptime.Proofs.Lowering.Procedure
import Comptime.Proofs.Shape.Procedures

/-!
# What a build gives

A build that succeeds has lowered the body to its end and frozen the code. The code is sound (`build_sound`), so that what
is said of sound code holds of whatever was built.
-/

namespace Comptime

variable {P : Ty → Bool} {E : Set Reg} {p : ProcDecl} {config : Config} {body : List Stmt} {sig : Sig} {F : Builder}
  {r : Built}

/-- What has to hold of the types of a body for its code to be sound. -/
structure Config.Accepts (config : Config) (P : Ty → Bool) (E : Set Reg) : Prop where
  bool : P .bool = true
  /-- A call whose result comes in a register that has no type leaves nothing to be read. -/
  calls : ∀ ins outs sig, P (.func ins outs) = true → Convention.sig? config.direct ins outs = some sig →
    sig.ret.rule = .direct → sig.retReg = .void → noReg ∈ E

theorem Build.unfrozen_sound (hRun : unfrozen p body { config, sig } = .ok () F)
    (hSig : Convention.sig? config.direct p.ins p.outs = some sig) (hAccepts : config.Accepts P E)
    (hBody : Stmt.listTypes P body = true) : F.Closed ∧ F.sig = sig ∧ (F.text []).Sound E := by
  obtain ⟨hClosed, hSig', hConfig, entry, slots, stop, hLowers⟩ := unfrozen_lowers hRun
  subst hSig' hConfig
  exact ⟨hClosed, rfl, hLowers.sound hSig rfl hAccepts.bool hBody hAccepts.calls⟩

namespace ProcDecl

/-- What is computed from a build that succeeds. -/
theorem exists_of_map_built {α : Type} {f : Built → α} {y : α} (h : (p.build config).built.toOption.map f = some y) :
    ∃ r, (p.build config).built = .ok r ∧ f r = y := by
  cases hBuilt : (p.build config).built with
  | error e => simp [hBuilt, Except.toOption] at h
  | ok r => exact ⟨r, rfl, by simpa [hBuilt, Except.toOption] using h⟩

theorem build_eq_ok (h : (p.build config).built = .ok r) : ∃ body sig F,
    p.body = some body ∧ Convention.sig? config.direct p.ins p.outs = some sig ∧
      Build.unfrozen p body { config, sig } = .ok () F ∧ F.stream.freeze? = .ok r.proc.code ∧
      r.proc.params = F.sig.regParams ∧ r.proc.numRegs = F.regs.high ∧ r.sig = F.sig ∧ r.proc.name = p.name := by
  rw [build] at h
  split at h
  · cases h
  · cases h
  · next body sig hBody hSig =>
    split at h
    · next hRun =>
      cases h
      obtain ⟨code, hUnfrozen, hFreeze, rfl⟩ := Build.procedure_eq_ok.mp hRun
      exact ⟨body, sig, _, hBody, hSig, hUnfrozen, hFreeze, rfl, rfl, rfl, rfl⟩
    · cases h
    · cases h

/-- **What is built is sound.** -/
theorem build_sound (h : (p.build config).built = .ok r) (hAccepts : config.Accepts P E)
    (hBody : ∀ body, p.body = some body → Stmt.listTypes P body = true) :
    ∃ T : Text, T.code = r.proc.code ∧ T.sig = r.sig ∧ r.proc.params = T.sig.regParams ∧ r.proc.numRegs = T.numRegs ∧
      T.Sound E := by
  obtain ⟨body, sig, F, hSome, hSig, hRun, hFreeze, hParams, hRegs, hSig', -⟩ := build_eq_ok h
  obtain ⟨hClosed, -, hSound⟩ := Build.unfrozen_sound hRun hSig hAccepts (hBody body hSome)
  exact ⟨F.text [], (hClosed.freeze_eq hFreeze).symm, hSig'.symm, hParams, hRegs, hSound⟩

end ProcDecl

end Comptime
