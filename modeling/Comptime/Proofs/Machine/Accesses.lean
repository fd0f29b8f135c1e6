import Comptime.Proofs.Machine.Arithmetic
import Comptime.Proofs.Machine.Step
import Mathlib.Tactic.Positivity

/-!
# Reading what was stored

A store leaves the bytes of its value at its address and changes nothing else, and what is loaded from them, or from a copy
of them, is the value or a piece of it (`Machine.store_framed`). Globals that reach the addresses of the stack are hidden
behind it: a value may be stored across the bottom of the stack, but a piece that lies in the stack is looked for there
(`Machine.hidden_piece`).
-/

namespace Comptime

open List Memory

/-! ## Little-endian words -/

namespace Memory

variable {v : UInt64} {n j k : Nat}

@[simp] theorem length_littleEndian (n : Nat) (v : UInt64) : (littleEndian n v).length = n := by
  induction n generalizing v with
  | zero => rfl
  | succ n ih => rw [littleEndian, length_cons, ih]

theorem shiftRight_eight (v : UInt64) : (v >>> 8).toNat = v.toNat / 256 := by
  rw [UInt64.toNat_shiftRight, Nat.shiftRight_eq_div_pow]
  rfl

/-- The bytes from `j` on are those of the word without its `j` low bytes. -/
theorem take_drop_littleEndian {w : UInt64} (hLen : j + k ≤ n) (hw : w.toNat = v.toNat / 256 ^ j) :
    ((littleEndian n v).drop j).take k = littleEndian k w := by
  induction j generalizing n v with
  | zero =>
    obtain rfl : w = v := UInt64.toNat_inj.mp (by rw [hw, pow_zero, Nat.div_one])
    rw [drop_zero]
    induction k generalizing n w with
    | zero => rfl
    | succ k ih =>
      obtain ⟨n, rfl⟩ := Nat.exists_eq_succ_of_ne_zero (show n ≠ 0 by omega)
      rw [littleEndian, littleEndian, take_succ_cons, ih (by omega) (by rw [pow_zero, Nat.div_one])]
  | succ j ih =>
    obtain ⟨n, rfl⟩ := Nat.exists_eq_succ_of_ne_zero (show n ≠ 0 by omega)
    rw [littleEndian, drop_succ_cons]
    refine ih (by omega) ?_
    rw [hw, shiftRight_eight, Nat.div_div_eq_div_mul, pow_succ']

theorem toNat_shiftRight_bytes (hj : j < 8) : (v >>> (8 * j).toUInt64).toNat = v.toNat / 256 ^ j := by
  have hCount : (8 * j).toUInt64.toNat % 64 = 8 * j := by
    rw [Nat.toUInt64_eq, UInt64.toNat_ofNat']
    omega
  rw [UInt64.toNat_shiftRight, Nat.shiftRight_eq_div_pow, hCount, pow_mul, show 2 ^ 8 = 256 from rfl]

theorem getElem?_littleEndian (hj : j < n) (hn : n ≤ 8) :
    (littleEndian n v)[j]? = some (v >>> (8 * j).toUInt64).toUInt8 := by
  have hByte := take_drop_littleEndian (k := 1) hj (toNat_shiftRight_bytes (v := v) (hj.trans_le hn))
  have hHead := congrArg head? hByte
  rw [head?_take, if_neg Nat.one_ne_zero, head?_drop] at hHead
  exact hHead

theorem toNat_ofLittleEndian (hn : n ≤ 8) : (ofLittleEndian (littleEndian n v)).toNat = v.toNat % 256 ^ n := by
  induction n generalizing v with
  | zero => rw [pow_zero, Nat.mod_one]; rfl
  | succ n ih =>
    have hRest : v.toNat / 256 % 256 ^ n < 2 ^ 56 :=
      (Nat.mod_lt _ (by positivity)).trans_le (Nat.pow_le_pow_right (by decide) (show n ≤ 7 by omega))
    have hShift : (ofLittleEndian (littleEndian n (v >>> 8)) <<< 8).toNat = 2 ^ 8 * (v.toNat / 256 % 256 ^ n) := by
      rw [UInt64.toNat_shiftLeft, ih (by omega), shiftRight_eight, Nat.shiftLeft_eq, mul_comm]
      exact Nat.mod_eq_of_lt (show 2 ^ 8 * _ < 2 ^ 64 by omega)
    rw [littleEndian, ofLittleEndian, UInt64.toNat_or, hShift, Nat.or_comm, UInt8.toNat_toUInt64, UInt64.toNat_toUInt8,
      ← Nat.two_pow_add_eq_or_of_lt (Nat.mod_lt _ (by decide)), pow_succ' 256 n, Nat.mod_mul, Nat.add_comm]

end Memory

theorem RegType.size_le (t : RegType) : t.size ≤ 8 := by cases t <;> simp [size]

/-- The canonical form of a value depends on its low bytes only. -/
theorem Word.canon_congr {t : RegType} {v w : UInt64} (ht : t.size ≠ 0)
    (h : v.toNat % 256 ^ t.size = w.toNat % 256 ^ t.size) :
    canon t v = canon t w := by
  have hWord (hSize : t.size = 8) : v = w := by
    rw [hSize, show 256 ^ 8 = 2 ^ 64 from rfl] at h
    rwa [Nat.mod_eq_of_lt v.toNat_lt, Nat.mod_eq_of_lt w.toNat_lt, UInt64.toNat_inj] at h
  cases t with
  | i8 => rw [canon, canon, show v.toUInt8 = w.toUInt8 from UInt8.toNat_inj.mp h]
  | i16 => rw [canon, canon, show v.toUInt16 = w.toUInt16 from UInt16.toNat_inj.mp h]
  | i32 | f32 => rw [canon, canon, show v.toUInt32 = w.toUInt32 from UInt32.toNat_inj.mp h]
  | i64 | f64 | ptr => rw [hWord rfl]
  | void | other => exact absurd rfl ht

/-! ## Stretches of memory -/

/-- The address of the first byte of an area. -/
def Area.base : Area → Nat
  | globals => globalBase
  | stack => stackBase

namespace Memory

variable {m : Memory} {a : Area} {addr : UInt64} {off n i : Nat} {xs : Array UInt8} {bs : List UInt8}

/-- The area holds `n` bytes from the address on. -/
def Holds (m : Memory) (a : Area) (addr : UInt64) (n : Nat) : Prop :=
  a.base ≤ addr.toNat ∧ addr.toNat + n ≤ a.base + (m.area a).size

instance : Decidable (m.Holds a addr n) := inferInstanceAs (Decidable (_ ∧ _))

theorem offset?_area (m : Memory) (a : Area) (addr : UInt64) (n : Nat) :
    offset? a.base (m.area a).size addr n = if m.Holds a addr n then some (addr.toNat - a.base) else none := by
  refine if_congr ?_ rfl rfl
  simp only [Holds]
  omega

/-- An access goes to the stack if that holds it, else to the globals. -/
theorem locate_eq_ok {size : Int64} (hn : size.toInt = n) : m.locate addr size = .ok (a, off) ↔
    m.Holds a addr n ∧ (a = .globals → ¬ m.Holds .stack addr n) ∧ addr.toNat = a.base + off := by
  have hSize : ¬ size < 0 := by
    rw [Int64.lt_iff_toInt_lt, hn]
    exact Int.not_lt.mpr (Int.natCast_nonneg n)
  have hStack := offset?_area m .stack addr n
  have hGlobals := offset?_area m .globals addr n
  simp only [Area.base, area] at hStack hGlobals
  simp only [locate, if_neg hSize, hn, Int.toNat_natCast, hStack, hGlobals]
  by_cases hS : m.Holds .stack addr n
  · cases a with
    | stack =>
      have hBase := hS.1
      simp only [hS, if_true, Except.ok.injEq, Prod.mk.injEq, true_and, reduceCtorEq, false_imp_iff, Area.base] at hBase ⊢
      omega
    | globals => simp [hS]
  · by_cases hG : m.Holds .globals addr n
    · cases a with
      | stack => simp [hS, hG]
      | globals =>
        have hBase := hG.1
        simp only [hS, hG, if_true, if_false, Except.ok.injEq, Prod.mk.injEq, true_and, not_false_eq_true, imp_self,
          Area.base] at hBase ⊢
        omega
    · cases a <;> simp [hS, hG]

theorem locate_sized {m' : Memory} {size : Int64} (h : m.Sized m') : m'.locate addr size = m.locate addr size := by
  rw [locate, locate, h.globals, h.stack]

/-! ## Writing -/

theorem getElem?_overwrite (hLen : off + bs.length ≤ xs.size) (i : Nat) :
    (overwrite xs off bs)[i]? = if off ≤ i ∧ i < off + bs.length then bs[i - off]? else xs[i]? := by
  induction bs generalizing xs off with
  | nil => rw [overwrite, if_neg (by rw [length_nil]; omega)]
  | cons b bs ih =>
    rw [length_cons] at hLen ⊢
    rw [overwrite, ih (by rw [Array.size_setIfInBounds]; omega)]
    rcases Nat.lt_trichotomy i off with hLt | rfl | hGt
    · rw [if_neg (by omega), if_neg (by omega), Array.getElem?_setIfInBounds_ne (by omega)]
    · rw [if_neg (by omega), if_pos (by omega), Array.getElem?_setIfInBounds_self_of_lt (by omega), Nat.sub_self,
        getElem?_cons_zero]
    · obtain ⟨k, rfl⟩ := Nat.exists_eq_add_of_lt hGt
      rw [Array.getElem?_setIfInBounds_ne (by omega), show off + k + 1 - off = k + 1 by omega, getElem?_cons_succ,
        show off + k + 1 - (off + 1) = k by omega]
      simp only [show off + 1 ≤ off + k + 1 ↔ off ≤ off + k + 1 by omega,
        show off + 1 + bs.length = off + (bs.length + 1) by omega]

theorem area_write (b : Area) : (m.write a off bs).area b = if b = a then overwrite (m.area a) off bs else m.area b := by
  cases a <;> cases b <;> rfl

theorem getElem?_write (hLen : off + bs.length ≤ (m.area a).size) (b : Area) (i : Nat) : ((m.write a off bs).area b)[i]? =
    if b = a ∧ off ≤ i ∧ i < off + bs.length then bs[i - off]? else (m.area b)[i]? := by
  rw [area_write]
  by_cases hArea : b = a
  · simp only [hArea, if_true, true_and, getElem?_overwrite hLen]
  · simp only [hArea, if_false, false_and]

theorem bytes_write (hLen : off + bs.length ≤ (m.area a).size) :
    ((m.write a off bs).bytes a off bs.length).toList = bs := by
  refine ext_getElem? fun i => ?_
  rw [bytes, area_write, if_pos rfl, Array.getElem?_toList, Array.getElem?_extract, size_overwrite, getElem?_overwrite hLen]
  split
  · rw [if_pos (by omega), Nat.add_sub_cancel_left]
  · rw [getElem?_eq_none (by omega)]

/-- The bytes of a part of a stretch. -/
theorem bytes_part {j k : Nat} (hPart : j + k ≤ n) :
    (m.bytes a (off + j) k).toList = ((m.bytes a off n).toList.drop j).take k := by
  rw [bytes, bytes, Array.toList_extract, Array.toList_extract, List.extract, List.extract, drop_take, take_take, drop_drop]
  congr 1
  omega

end Memory

namespace Machine

variable {m : Machine} {f : Frame} {ws : List Waiting} {t : RegType} {r val : Reg} {align : Int64} {a : Area}
  {addr v : UInt64} {off : Nat}

/-- Whoever loads from the address gets the value. -/
def Loads (m : Machine) (t : RegType) (addr v : UInt64) : Prop := ∀ (f : Frame) (ws : List Waiting) (dst r : Reg) (align : Int64),
  f.reg? r = some addr → m.exec f ws (.load t dst r align) = m.continueWith f ws (f.define? dst v)

/-- A value of that type is at the address: it can be loaded, and every narrower integer loaded from its bytes is a piece of
it. A piece that lies in the stack while the value does not is hidden. -/
structure Bears (m : Machine) (t : RegType) (addr v : UInt64) : Prop where
  whole : m.Loads t addr (Word.canon t v)
  piece : ∀ (u : RegType) (j : Nat) (addr' : UInt64), u.isInteger = true → addr'.toNat = addr.toNat + j →
    j + u.size ≤ t.size → (m.memory.Holds .stack addr' u.size → m.memory.Holds .stack addr t.size) →
    m.Loads u addr' (Word.canon u (v >>> (8 * j).toUInt64))

theorem toInt_size (t : RegType) : (Int64.ofNat t.size).toInt = t.size := by cases t <;> rfl

/-- Where an access goes, and what its bytes are. -/
def Puts (m : Machine) (t : RegType) (addr v : UInt64) (a : Area) (off : Nat) : Prop :=
  m.memory.locate addr (Int64.ofNat t.size) = .ok (a, off) ∧
    (m.memory.bytes a off t.size).toList = littleEndian t.size v

theorem Puts.loads (h : m.Puts t addr v a off) (ht : t.size ≠ 0) : m.Loads t addr (Word.canon t v) := by
  intro f ws dst r align hAddr
  have hValue : Word.canon t (ofLittleEndian (littleEndian t.size v)) = Word.canon t v :=
    Word.canon_congr ht (by rw [toNat_ofLittleEndian t.size_le, Nat.mod_mod])
  simp only [exec, hAddr, load, h.1, if_neg ht, h.2, hValue]

theorem Puts.bears (h : m.Puts t addr v a off) (ht : t.size ≠ 0) : m.Bears t addr v := by
  refine ⟨h.loads ht, fun u j addr' hu hAddr hPart hHidden => ?_⟩
  have hSize := t.size_le
  have hPos : 0 < u.size := Nat.pos_of_mul_pos_left (RegType.bits_pos hu)
  obtain ⟨⟨hBase, hEnd⟩, hFirst, hOff⟩ := (locate_eq_ok (toInt_size t)).mp h.1
  have hPuts : m.Puts u addr' (v >>> (8 * j).toUInt64) a (off + j) := by
    constructor
    · exact (locate_eq_ok (toInt_size u)).mpr
        ⟨⟨by omega, by omega⟩, fun hGlobals hStack => hFirst hGlobals (hHidden hStack), by omega⟩
    · rw [bytes_part hPart, h.2, take_drop_littleEndian hPart (toNat_shiftRight_bytes (by omega))]
  exact hPuts.loads hPos.ne'

theorem puts_write (hLoc : m.memory.locate addr (Int64.ofNat t.size) = .ok (a, off)) (v : UInt64) :
    Puts { m with memory := m.memory.write a off (littleEndian t.size v) } t addr v a off := by
  obtain ⟨⟨-, hEnd⟩, -, hOff⟩ := (locate_eq_ok (toInt_size t)).mp hLoc
  have hBytes := bytes_write (show off + (littleEndian t.size v).length ≤ (m.memory.area a).size by
    rw [length_littleEndian]
    omega)
  rw [length_littleEndian] at hBytes
  exact ⟨(locate_sized Alike.write.toSized).trans hLoc, hBytes⟩

theorem Puts.copy {b : Area} {d : UInt64} {off' : Nat} {dst src : Reg} (h : m.Puts t addr v a off) (ht : t.size ≠ 0)
    (hTo : m.memory.locate d (Int64.ofNat t.size) = .ok (b, off')) (hd : f.reg? dst = some d)
    (hs : f.reg? src = some addr) :
    ∃ m', m.exec f ws (.copy dst src (Int64.ofNat t.size) align) = .running m' f.next ws ∧ m'.Bears t d v := by
  refine ⟨_, ?_, (puts_write hTo v).bears ht⟩
  simp only [exec, hd, hs, Machine.copy, hTo, Memory.read, h.1, toInt_size, Int.toNat_natCast, bind, Except.bind, pure,
    Except.pure, h.2]

theorem exec_store (ht : t.size ≠ 0) (hLoc : m.memory.locate addr (Int64.ofNat t.size) = .ok (a, off))
    (hAddr : f.reg? r = some addr) (hVal : f.reg? val = some v) : m.exec f ws (.store t r val align) =
      .running { m with memory := m.memory.write a off (littleEndian t.size v) } f.next ws := by
  simp only [exec, hAddr, store, hLoc, hVal, if_neg ht]

/-- **What is stored can be read.** A store within bounds leaves the bytes of the value in the one area that holds them and
changes no other byte and nothing else of the machine. The value is loaded from its address, as a whole or in pieces, and so
it is from wherever its bytes are copied to. -/
theorem store_framed (ht : t.size ≠ 0) (hLoc : m.memory.locate addr (Int64.ofNat t.size) = .ok (a, off))
    (hAddr : f.reg? r = some addr) (hVal : f.reg? val = some v) :
    ∃ m', m.exec f ws (.store t r val align) = .running m' f.next ws ∧ m'.Bears t addr v ∧
      m' = { m with memory := m'.memory } ∧ m.memory.Alike m'.memory ∧
      m.memory.Holds a addr t.size ∧ addr.toNat = a.base + off ∧
      (∀ b i, (m'.memory.area b)[i]? = if b = a ∧ off ≤ i ∧ i < off + t.size
        then some (v >>> (8 * (i - off)).toUInt64).toUInt8 else (m.memory.area b)[i]?) ∧
      ∀ d b off', m.memory.locate d (Int64.ofNat t.size) = .ok (b, off') → ∀ (g : Frame) (xs : List Waiting) (dst src : Reg)
        (al : Int64), g.reg? dst = some d → g.reg? src = some addr →
        ∃ m'', m'.exec g xs (.copy dst src (Int64.ofNat t.size) al) = .running m'' g.next xs ∧ m''.Bears t d v := by
  obtain ⟨hHolds, -, hOff⟩ := (Memory.locate_eq_ok (toInt_size t)).mp hLoc
  have hLen : off + (Memory.littleEndian t.size v).length ≤ (m.memory.area a).size := by
    have hEnd := hHolds.2
    rw [Memory.length_littleEndian]
    omega
  have hPuts := puts_write hLoc v
  refine ⟨_, exec_store ht hLoc hAddr hVal, hPuts.bears ht, rfl, Memory.Alike.write, hHolds, hOff, fun b i => ?_,
    fun d b off' hTo g xs dst src al hd hs => ?_⟩
  · rw [Memory.getElem?_write hLen, Memory.length_littleEndian]
    refine ite_congr rfl (fun hIn => ?_) fun _ => rfl
    rw [Memory.getElem?_littleEndian (by omega) t.size_le]
  · exact hPuts.copy ht ((Memory.locate_sized Memory.Alike.write.toSized).trans hTo) hd hs

/-- A machine whose globals reach four bytes into the addresses of the stack, and `n` bytes of stack. -/
def overlapping (n : Nat) : Machine :=
  { limits := {}, memory := { globals := Array.replicate 0x0ffff004 0, stack := Array.replicate n 0 } }

/-- An address four bytes before the stack, and a value of eight bytes. -/
def straddling : Frame := ⟨⟨"f", [], .void, #[], 2⟩, #[0x0ffffffc, 0x1122334455667788], 0, 0⟩

theorem locate_straddling (n : Nat) :
    (overlapping n).memory.locate 0x0ffffffc (Int64.ofNat RegType.i64.size) = .ok (.globals, 0x0fffeffc) := by
  have hSize : ((overlapping n).memory.area .globals).size = 0x0ffff004 := Array.size_replicate
  refine (locate_eq_ok (toInt_size .i64)).mpr ⟨⟨by decide, ?_⟩, fun _ hStack => ?_, by decide⟩
  · rw [hSize]
    decide
  · exact absurd hStack.1 (by decide)

/-- Without a stack the upper half of the value is read behind the lower one. -/
theorem straddling_framed : ∃ m', (overlapping 0).exec straddling [] (.store .i64 0 1 1) = .running m' straddling.next [] ∧
    m'.Loads .i32 0x10000000 0x11223344 := by
  have hAddr : straddling.reg? 0 = some 0x0ffffffc := rfl
  have hVal : straddling.reg? 1 = some 0x1122334455667788 := rfl
  obtain ⟨m', hStore, hBears, -, hAlike, -⟩ := store_framed (by decide) (locate_straddling 0) hAddr hVal
  refine ⟨m', hStore, hBears.piece .i32 4 0x10000000 rfl rfl (by decide) fun hStack => ?_⟩
  have hSize : (m'.memory.area .stack).size = 0 := hAlike.stack.trans Array.size_replicate
  have hEnd := hStack.2
  rw [hSize] at hEnd
  exact absurd hEnd (by decide)

/-- **A piece of a value is hidden behind the stack.** The value is stored as before, but where its upper half should be,
the stack is read. -/
theorem hidden_piece : ∃ m', (overlapping 64).exec straddling [] (.store .i64 0 1 1) = .running m' straddling.next [] ∧
    m'.Loads .i32 0x10000000 0 ∧ Word.canon .i32 ((0x1122334455667788 : UInt64) >>> 32) = 0x11223344 := by
  have hAddr : straddling.reg? 0 = some 0x0ffffffc := rfl
  have hVal : straddling.reg? 1 = some 0x1122334455667788 := rfl
  have hSize : ((overlapping 64).memory.area .stack).size = 64 := Array.size_replicate
  have hZero : ((Array.replicate 64 (0 : UInt8)).extract 0 4).toList = Memory.littleEndian 4 0 := by decide
  have hPuts (bs : List UInt8) : Puts { overlapping 64 with memory := (overlapping 64).memory.write .globals 0x0fffeffc bs } .i32
      0x10000000 0 .stack 0 := by
    refine ⟨?_, hZero⟩
    change ((overlapping 64).memory.write .globals 0x0fffeffc bs).locate 0x10000000 _ = _
    rw [Memory.locate_sized Memory.Alike.write.toSized]
    refine (Memory.locate_eq_ok (toInt_size .i32)).mpr ⟨⟨by decide, ?_⟩, fun h => ?_, by decide⟩
    · rw [hSize]
      decide
    · cases h
  exact ⟨_, exec_store (by decide) (locate_straddling 64) hAddr hVal, (hPuts _).loads (by decide), rfl⟩

end Machine

end Comptime
