import Comptime.Proofs.Simulation.Behaviour

/-!
# Dispatch

A switch looks at its tag as at a signed number of the tag's width, and compares it with what its cases list. So it enters
the first case that lists the value of the tag, or the default case, if that value is below half of the range of its type.
From there on an unsigned value is taken for a negative one, which is not in the range of the type, so that whatever the
cases list it is the default case that is entered (`ProcDecl.build_dispatches`).
-/

namespace Comptime

open Watch List Stmt

namespace Case

variable {α : Type} {cs : List (Case α)} {z : Int}

/-- The case lists the value. -/
def Lists (c : Case α) (z : Int) : Prop := ∃ k ∈ c.values, k.toInt = z

instance (c : Case α) : DecidablePred c.Lists := fun z => inferInstanceAs (Decidable (∃ k ∈ c.values, k.toInt = z))

/-- The default case, if there is one. -/
def fallback (cs : List (Case α)) : Option Nat := cs.findIdx? (·.values.isEmpty)

/-- The case for a value: the first one that lists it, or else the default case. -/
def choice (cs : List (Case α)) (z : Int) : Option Nat := (cs.findIdx? (·.Lists z)).or (fallback cs)

/-- There is at most one default case. -/
def OneDefault (cs : List (Case α)) : Prop := cs.countP (·.values.isEmpty) ≤ 1

instance : Decidable (OneDefault cs) := inferInstanceAs (Decidable (_ ≤ 1))

theorem default?_eq_fallback (h : OneDefault cs) : default? cs = fallback cs := by
  induction cs with
  | nil => rfl
  | cons c cs ih =>
    rw [OneDefault, countP_cons] at h
    rw [fallback, findIdx?_cons, default?, reverse_cons, findIdx?_append, findIdx?_singleton, length_cons]
    cases hEmpty : c.values.isEmpty with
    | true =>
      have hNone : cs.reverse.findIdx? (·.values.isEmpty) = none := by
        rw [hEmpty, if_pos rfl] at h
        simpa [findIdx?_eq_none_iff] using countP_eq_zero.mp (Nat.le_zero.mp (Nat.le_of_succ_le_succ h))
      simp [hNone]
    | false =>
      have hRest := ih (by rw [OneDefault]; omega)
      rw [default?] at hRest
      rw [show cs.findIdx? (·.values.isEmpty) = fallback cs from rfl, ← hRest]
      cases hFound : cs.reverse.findIdx? (·.values.isEmpty) with
      | none => rfl
      | some i =>
        have hLt : i < cs.length := by simpa using (findIdx?_eq_some_iff_getElem.mp hFound).1
        simp only [Option.some_or, Option.map_some, Bool.false_eq_true, if_false, Option.some.injEq]
        omega

theorem lists_toInt {c : Case α} {k : Int64} : c.Lists k.toInt ↔ k ∈ c.values := by
  simp only [Lists, Int64.toInt_inj, exists_eq_right]

/-- A word leads to the case for the number that it is, with its sign. -/
theorem select_eq (h : OneDefault cs) (w : UInt64) : select cs (some w) = pure (choice cs w.toInt64.toInt) := by
  rw [select, choice, default?_eq_fallback h]
  split
  · next hAll =>
    have hNone : cs.findIdx? (·.Lists w.toInt64.toInt) = none := by
      rw [findIdx?_eq_none_iff]
      intro c hc
      have hEmpty : c.values = [] := by simpa using all_eq_true.mp hAll c hc
      simp [lists_toInt, hEmpty]
    rw [hNone, Option.none_or]
  · simp only [Eval.demand, pure_bind, lists_toInt]

/-- What no case lists leads to the default case. -/
theorem choice_of_not_listed (h : ∀ c ∈ cs, ¬c.Lists z) : choice cs z = fallback cs := by
  have hNone : cs.findIdx? (·.Lists z) = none := by
    rw [findIdx?_eq_none_iff]
    exact fun c hc => decide_eq_false (h c hc)
  rw [choice, hNone, Option.none_or]

end Case

/-! ## Numbers in registers -/

namespace Ty

/-- How many values an integer type has. -/
def numValues (bits : Int16) : Nat := 2 ^ bits.toInt.toNat

/-- The value is one of an integer type. -/
def HasValue (bits : Int16) (signed : Bool) (z : Int) : Prop :=
  if signed then -numValues bits ≤ 2 * z ∧ 2 * z < numValues bits else 0 ≤ z ∧ z < numValues bits

instance {bits : Int16} {signed : Bool} {z : Int} : Decidable (HasValue bits signed z) :=
  inferInstanceAs (Decidable (if signed then _ else _))

/-- The word in which a value of the type is kept. -/
def word? (t : Ty) (z : Int) : Option UInt64 := t.regType?.map (Word.canon · (Int64.ofInt z).toUInt64)

/-- What is cut to 64 bits first is cut to fewer in the end. -/
theorem bmod_cut (z : Int) {n : Nat} (h : n ∣ 2 ^ 64) : (max (z % 18446744073709551616) 0).bmod n = z.bmod n := by
  have hDvd : (n : Int) ∣ 18446744073709551616 := by exact_mod_cast h
  rw [max_eq_left (Int.emod_nonneg _ (by decide)), ← Int.emod_bmod (z % _), Int.emod_emod_of_dvd z hDvd, Int.emod_bmod]

/-- Numbers are kept with the sign that they have as numbers of their width. -/
theorem word?_int {bits : Int16} {signed : Bool} (h : (int bits signed).isNatural = true) (z : Int) :
    ∃ w, (int bits signed).word? z = some w ∧ w.toInt64.toInt = z.bmod (numValues bits) := by
  have hBits : bits = 8 ∨ bits = 16 ∨ bits = 32 ∨ bits = 64 := by simpa [isNatural, or_assoc] using h
  rcases hBits with rfl | rfl | rfl | rfl
  · refine ⟨Word.canon .i8 (Int64.ofInt z).toUInt64, rfl, ?_⟩
    rw [Word.canon, Int64.toInt64_toUInt64, Int8.toInt_toInt64, ← Int8.toInt_toBitVec, show numValues 8 = 256 from rfl]
    simpa using bmod_cut z (n := 256) (by decide)
  · refine ⟨Word.canon .i16 (Int64.ofInt z).toUInt64, rfl, ?_⟩
    rw [Word.canon, Int64.toInt64_toUInt64, Int16.toInt_toInt64, ← Int16.toInt_toBitVec, show numValues 16 = 65536 from rfl]
    simpa using bmod_cut z (n := 65536) (by decide)
  · refine ⟨Word.canon .i32 (Int64.ofInt z).toUInt64, rfl, ?_⟩
    rw [Word.canon, Int64.toInt64_toUInt64, Int32.toInt_toInt64, ← Int32.toInt_toBitVec, show numValues 32 = 4294967296 from rfl]
    simpa using bmod_cut z (n := 4294967296) (by decide)
  · exact ⟨Word.canon .i64 (Int64.ofInt z).toUInt64, rfl, Int64.toInt_ofInt⟩

variable {bits : Int16} {signed : Bool} {z : Int}

theorem HasValue.bmod_low (h : HasValue bits signed z) (hLow : 2 * z < numValues bits) : z.bmod (numValues bits) = z := by
  have hAbove : -(numValues bits : Int) ≤ 2 * z := by
    cases signed with
    | true => exact h.1
    | false =>
      have hNonneg : 0 ≤ z := h.1
      omega
  exact Int.bmod_eq_of_le_mul_two (by omega) (by omega)

theorem HasValue.bmod_high (h : HasValue bits signed z) (hHigh : numValues bits ≤ 2 * z) :
    z.bmod (numValues bits) = z - numValues bits := by
  have hBelow : z < numValues bits := by
    cases signed with
    | true =>
      have hLow : 2 * z < numValues bits := h.2
      omega
    | false => exact h.2
  rw [← Int.sub_bmod_right, Int.bmod_eq_of_le_mul_two (by omega) (by omega)]

end Ty

/-! ## Switches -/

/-- Enters a case of a switch, or goes past it. -/
def Stmt.entering (S : Setting) (cs : List (Case Stmt)) : Option Nat → Eval Exit
  | some i => do return (← fallFrom ((execCases S cs).drop i)).ofSwitch
  | none => return .done

variable {S : Setting} {tag : Expr} {cs : List (Case Stmt)} {done done' : List Deed}

theorem Stmt.exec_switch {w : UInt64} (h : Case.OneDefault cs) (hTag : tag.value S done = .ok (some w) done') :
    exec S (.switch tag cs) done = entering S cs (Case.choice cs w.toInt64.toInt) done' := by
  rw [exec]
  change EStateM.bind (tag.value S) _ done = _
  rw [EStateM.bind, hTag]
  simp only [Case.select_eq h, pure_bind]
  rfl

/-- Where a switch leads whose tag has a value. -/
structure Dispatches (S : Setting) (bits : Int16) (tag : Expr) (cs : List (Case Stmt)) (z : Int)
    (done done' : List Deed) : Prop where
  /-- To the first case that lists the value, if that is in the lower half of the values that the width allows. -/
  low : 2 * z < Ty.numValues bits → exec S (.switch tag cs) done = entering S cs (Case.choice cs z) done'
  /-- Otherwise to the first one that lists the negative number with the same bits. -/
  high : Ty.numValues bits ≤ 2 * z →
    exec S (.switch tag cs) done = entering S cs (Case.choice cs (z - Ty.numValues bits)) done'
  /-- So if the cases list no negative numbers it goes to the default case. -/
  missed : Ty.numValues bits ≤ 2 * z → z < Ty.numValues bits → (∀ c ∈ cs, ∀ k ∈ c.values, 0 ≤ k) →
    exec S (.switch tag cs) done = entering S cs (Case.fallback cs) done'

theorem dispatches {bits : Int16} {signed : Bool} {z : Int} (hNatural : (Ty.int bits signed).isNatural = true)
    (hValue : Ty.HasValue bits signed z) (hDefault : Case.OneDefault cs)
    (hTag : tag.value S done = .ok ((Ty.int bits signed).word? z) done') : Dispatches S bits tag cs z done done' := by
  obtain ⟨w, hWord, hInt⟩ := Ty.word?_int hNatural z
  rw [hWord] at hTag
  have hExec := exec_switch hDefault hTag
  rw [hInt] at hExec
  have hHigh : Ty.numValues bits ≤ 2 * z →
      exec S (.switch tag cs) done = entering S cs (Case.choice cs (z - Ty.numValues bits)) done' :=
    fun h => hValue.bmod_high h ▸ hExec
  refine ⟨fun h => hValue.bmod_low h ▸ hExec, hHigh, fun h hBelow hCases => ?_⟩
  rw [hHigh h, Case.choice_of_not_listed]
  rintro c hc ⟨k, hk, hEq⟩
  have hNonneg : 0 ≤ k.toInt := Int64.le_iff_toInt_le.mp (hCases c hc k hk)
  omega

namespace ProcDecl

variable {p : ProcDecl} {config : Config} {r : Built} {body : List Stmt}

/-- **Switches.** Unless the run ends in the entry of the procedure, it does what the body says, and every switch in it
leads where `Dispatches` says, for every integer type and value of its tag, if it has no more than one default case. -/
theorem build_dispatches (m : Machine) (args : List UInt64) (h : (p.build config).built = .ok r)
    (hBody : p.body = some body)
    (hRegular : Stmt.listRegular body = true) (hOrdered : Stmt.listOrdered [] body = true)
    (hSteps : m.limits.maxSteps = 0) :
    (ofCall m r.proc args).Barred ∨ ∃ (S : Setting) (ds : List Deed), S.Met config r m args ds ∧
        ((ofCall m r.proc args).Performs fun n => Stmt.execBody { S with rounds := n } body ds) ∧
          ∀ n tag cs bits signed z done done', (Ty.int bits signed).isNatural = true → Ty.HasValue bits signed z →
            Case.OneDefault cs → tag.value { S with rounds := n } done = .ok ((Ty.int bits signed).word? z) done' →
              Dispatches { S with rounds := n } bits tag cs z done done' := by
  rcases build_performs m args h hBody hRegular hOrdered hSteps with hBarred | ⟨S, ds, hMet, hPerforms⟩
  · exact .inl hBarred
  · exact .inr ⟨S, ds, hMet, hPerforms, fun n tag cs bits signed z done done' => dispatches⟩

end ProcDecl

/-- Two cases for an unsigned tag, one in the lower and one in the upper half of its range. -/
def grades : List (Case Stmt) := [⟨[200], [.ret [.int .s64 1]]⟩, ⟨[100], [.ret [.int .s64 2]]⟩]

/-- It returns which of the two cases it has entered. -/
def grading : ProcDecl where
  id := 1
  name := "grade"
  ins := [.int 8 false]
  outs := [.s64]
  params := [⟨⟨2, "x"⟩, .int 8 false, false⟩]
  body := some [.switch (.ident (.int 8 false) (.var ⟨⟨2, "x"⟩, .int 8 false, false⟩)) grades, .ret [.int .s64 0]]

/-- What a call of it with this argument has returned. -/
def grade (x : UInt64) : Option UInt64 :=
  (grading.build {}).built.toOption.bind fun r => (tick^[20] (ofCall roomy r.proc [x])).run.returned?

/-- The lower one of the cases is entered. -/
theorem ProcDecl.build_dispatches_grading : ∃ r body, (grading.build {}).built = .ok r ∧ grading.body = some body ∧
    ∃ (S : Setting) (ds : List Deed), (∃ n ds', Stmt.execBody { S with rounds := n } body ds = .ok 2 ds') ∧
      ∀ n tag done done', tag.value { S with rounds := n } done = .ok (some 100) done' →
        Stmt.exec { S with rounds := n } (.switch tag grades) done = Stmt.entering { S with rounds := n } grades
          (some 1) done' := by
  have hRun : ((grading.build {}).built.toOption.map fun r => (tick^[20] (ofCall roomy r.proc [100])).run.returned?) =
    some (some 2) := by
    decide +kernel
  obtain ⟨r, hBuilt, hTwo⟩ := exists_of_map_built hRun
  obtain ⟨m, hReturned⟩ := Run.returned?_eq_some.mp hTwo
  rcases build_dispatches roomy [100] hBuilt rfl rfl rfl rfl with
    hBarred | ⟨S, ds, -, hPerforms, hDispatches⟩
  · exact absurd hBarred (Watch.not_barred hReturned)
  · refine ⟨r, _, hBuilt, rfl, S, ds, (hPerforms.returns 2).mp ⟨20, m, hReturned⟩, fun n tag done done' hTag => ?_⟩
    exact (hDispatches n tag grades 8 false 100 done done' (by decide) (by decide) (by decide) hTag).low (by decide)

/-- The upper one is not, though its value is listed. -/
theorem grade_misses : Case.choice grades 200 = some 0 ∧ grade 200 = some 0 ∧ grade 100 = some 2 := by
  refine ⟨by decide, ?_, ?_⟩ <;> decide +kernel

end Comptime
