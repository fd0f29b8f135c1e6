import Comptime.Proofs.Bytecode.Freezing
import Comptime.Proofs.Lowering.Growth
import Comptime.Proofs.Shape.Basic

/-!
# Finished code

A builder in which no insertion is open has its code in the order of its layout, so that an instruction is found at the
`place` of its handle, and what follows an instruction at the `point` after it. `Builder.text` is this code, with branch
targets as positions.
-/

namespace Comptime

open List

namespace Builder

open Comptime.Stream

variable {b b' F : Builder} {h : Nat} {x : Instr} {U : Set Spot}

/-- The position of an instruction in finished code. -/
def place (b : Builder) (h : Nat) : Nat := b.stream.order.idxOf h

/-- The position after an instruction, or that of the body. -/
def point (b : Builder) : Option Nat → Nat
  | none => b.setup.length
  | some h => b.place h + 1

/-- The position of a branch target. One that is missing stays so. -/
def position (b : Builder) (t : Handle) : Handle := if t < 0 then t else b.place t.toNat

@[simp] theorem position_natCast : b.position (h : Int) = b.place h := by
  rw [position, if_neg (Int.not_lt.mpr (Int.natCast_nonneg h)), Int.toNat_natCast]

/-- An instruction with its branch targets as positions. -/
def resolved (b : Builder) (h : Nat) : Instr := (b.code h).relocate b.position

/-- The code of a builder, seen from a point where these locals have slots. -/
def text (b : Builder) (slots : List (Nat × Reg)) : Text where
  code := (b.stream.order.map b.resolved).toArray
  start := b.setup.length
  fixed := b.regs.Keeps
  numRegs := b.regs.high
  direct := b.config.direct
  sig := b.sig
  outs := b.outs
  slots := slots

/-- Where the next instruction of `b` will stand in the code of `F`. -/
def atEnd (F b : Builder) : Point := ⟨F.point b.last, b.regs.next, b.regs.high⟩

/-- A builder in which no insertion is open. -/
structure Closed (b : Builder) : Prop where
  sound : b.Sound
  done : b.stream.insertions = []

namespace Closed

variable (hF : F.Closed)

include hF

theorem order_eq : F.stream.order = F.setup ++ F.body := by rw [setup_append_body, layout_eq_order hF.done]

theorem place_eq {xs ys : List Nat} (hBody : F.body = xs ++ h :: ys) : F.place h = F.setup.length + xs.length := by
  have hOrder : F.stream.order = (F.setup ++ xs) ++ h :: ys := by rw [hF.order_eq, hBody, append_assoc]
  have hNot : h ∉ F.setup ++ xs := fun hIn => by
    have hNodup := hF.sound.stream.nodup_order
    rw [hOrder] at hNodup
    exact (nodup_append.mp hNodup).2.2 h hIn h mem_cons_self rfl
  rw [place, hOrder, idxOf_append_of_notMem hNot, idxOf_cons_self, length_append, Nat.add_zero]

theorem point_eq {xs ys : List Nat} (hBody : F.body = xs ++ h :: ys) : F.point xs.getLast? = F.place h := by
  rw [hF.place_eq hBody]
  rcases eq_nil_or_concat' xs with rfl | ⟨us, u, rfl⟩
  · rfl
  · have hBody' : F.body = us ++ u :: (h :: ys) := by rw [hBody, append_assoc]; rfl
    rw [getLast?_concat, point, hF.place_eq hBody', length_append]
    rfl

theorem code_at {l : List (Nat × Reg)} (hMem : h ∈ F.body) : (F.text l).code[F.place h]? = some (F.resolved h) := by
  have hOrder : h ∈ F.stream.order := by
    rw [hF.order_eq]
    exact mem_append_right _ hMem
  have hAt : F.stream.order[F.place h]? = some h := getElem?_idxOf hOrder
  rw [text, getElem?_toArray, getElem?_map, hAt]
  rfl

theorem setup_at {l : List (Nat × Reg)} {x y : List Nat} (hSetup : F.setup = x ++ h :: y) :
    (F.text l).code[x.length]? = some (F.resolved h) := by
  have hOrder : F.stream.order = x ++ h :: (y ++ F.body) := by rw [hF.order_eq, hSetup]; simp
  rw [text, getElem?_toArray, getElem?_map, hOrder, getElem?_append_right (le_refl _), Nat.sub_self]
  rfl

variable {c : Builder} {y : Nat} {xs ys : List Nat} {l : List (Nat × Reg)} (hGrows : Grows U b F)

include hGrows

/-- The first instruction that was put after those of `c` stands where the code of `c` ends. -/
theorem place_first (hFront : b.front = c.front ++ h :: ys) (hU : .before h ∉ U) : F.place h = (F.atEnd c).pos := by
  have hBody : b.body = c.front ++ h :: (ys ++ b.rest) := by rw [← front_append_rest, hFront]; simp
  obtain ⟨xs', ys', hBody', hLast⟩ := hGrows.gaps _ h _ hBody hU
  rw [← hF.point_eq hBody', hLast]
  rfl

/-- The instruction in front of which nothing more is put follows the one it was put after. -/
theorem place_next (hFront : b.front = xs ++ y :: h :: ys) (hU : .before h ∉ U) : F.place h = F.place y + 1 := by
  have hBody : b.body = (xs ++ [y]) ++ h :: (ys ++ b.rest) := by rw [← front_append_rest, hFront]; simp
  obtain ⟨xs', ys', hBody', hLast⟩ := hGrows.gaps _ h _ hBody hU
  rw [← hF.point_eq hBody', hLast, getLast?_concat]
  rfl

/-- What stands later stands later in finished code. -/
theorem place_lt (hFront : b.front = xs ++ y :: ys) (hMem : h ∈ ys) : F.place y < F.place h := by
  obtain ⟨us, vs, rfl⟩ := append_of_mem hMem
  have hSub : [y, h].Sublist F.body := by
    refine List.Sublist.trans ?_ hGrows.order
    have hBody : b.body = xs ++ y :: (us ++ h :: (vs ++ b.rest)) := by rw [← front_append_rest, hFront]; simp
    rw [hBody]
    exact ((sublist_append_of_sublist_right (singleton_sublist.mpr mem_cons_self)).cons_cons y).trans
      (sublist_append_right _ _)
  obtain ⟨r1, r2, hSplit, hy, hh⟩ := cons_sublist_iff.mp hSub
  obtain ⟨s1, t1, rfl⟩ := append_of_mem hy
  obtain ⟨s2, t2, rfl⟩ := append_of_mem (singleton_sublist.mp hh)
  have hy' : F.body = s1 ++ y :: (t1 ++ (s2 ++ h :: t2)) := by rw [hSplit]; simp
  have hh' : F.body = (s1 ++ y :: t1 ++ s2) ++ h :: t2 := by rw [hSplit]; simp
  rw [hF.place_eq hy', hF.place_eq hh', length_append, length_append, length_cons]
  omega

omit hF in
theorem mem_body (hMem : h ∈ b.front) : h ∈ F.body :=
  hGrows.order.subset (by rw [← front_append_rest]; exact mem_append_left _ hMem)

/-- An instruction that is settled is found at its place. -/
theorem code_front (hb : b.Sound) (hMem : h ∈ b.front) (hU : .code h ∉ U) :
    (F.text l).code[F.place h]? = some ((b.code h).relocate F.position) := by
  rw [hF.code_at (Closed.mem_body hGrows hMem), resolved, hGrows.code h (hb.lt_of_mem_front hMem) hU]

omit hF hGrows in
theorem atEnd_of_last (hLast : b.last = some h) : F.atEnd b = ⟨F.place h + 1, b.regs.next, b.regs.high⟩ := by
  rw [Builder.atEnd, hLast]
  rfl

end Closed

end Builder

end Comptime
