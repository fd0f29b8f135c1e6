import Comptime.Bytecode.Listing
import Mathlib

/-!
# Reading a listing back

A listing says everything about the procedure it is of: two procedures of one name and one listing are one. The text of
an instruction is cut into pieces, words and the marks between them (`cut`). Since no character occurs both in words and in
marks, a text is cut in one way (`cut_unique`), and since no two pieces are written alike, the pieces can be read off it.
What a listing does leave out are the exact bits of a float, the test of a jump and the type of a return without a value.
-/

namespace Comptime

open List

/-! ## What a listing says -/

/-- The code stands for a type. -/
def RegType.Named (ty : RegType) : Prop := ty ∈ RegType.all

/-- The code stands for an operation. -/
def Op.Named (op : Op) : Prop := op ∈ Op.all

/-- The instruction is all in its text. -/
def Instr.Legible : Instr → Prop
  | .bin op ty .. => op.Named ∧ ty.Named
  | .un op ty source .. => op.Named ∧ ty.Named ∧ source.Named
  | .imm ty .. => ty.Named ∧ ty.isFloat = false
  | .load ty .. | .store ty .. | .call ty .. => ty.Named
  | .addr _ sym => '\n' ∉ sym.toList
  | .branch test arms _ => arms = [] → test = noReg
  | .ret ty val => ty.Named ∧ (val = noReg → ty = .void)
  | .hole | .copy .. | .fill .. | .reserve .. | .region => True

structure Proc.Legible (p : Proc) : Prop where
  params : ∀ ty ∈ p.params, ty.Named
  ret : p.ret.Named
  code : ∀ x ∈ p.code, x.Legible

namespace Listing

/-! ## Pieces -/

/-- A piece of a listing: a word, or what stands between two words. -/
inductive Piece where
  | reg (r : Reg)
  | num (n : Int)
  | label (h : Handle)
  | type (ty : RegType)
  | op (o : Op)
  | word (s : String)
  | mark (s : String)
deriving DecidableEq

/-- Whether the character occurs in marks. The end of a line and what comes before a symbol are in no piece. -/
def inMarks (c : Char) : Option Bool :=
  if c == '\n' || c == '@' then none else some ([' ', ',', ':', '(', ')', '[', ']'].contains c)

def isNumeric (c : Char) : Bool := c.isDigit || c == '-'

namespace Piece

variable {p q : Piece}

def text : Piece → List Char
  | reg r => 'r' :: (toString r).toList
  | num n => (toString n).toList
  | label h => 'L' :: if h = noHandle then ['?'] else (toString h).toList
  | type ty => ty.name.toList
  | op o => o.name.toList
  | word s | mark s => s.toList

@[simp] def isMark : Piece → Bool
  | mark _ => true
  | _ => false

def words : List String :=
  ["<<nil>>", "imm", "load", "store", "copy", "fill", "local", "addr", "call", "jmp", "br", "region", "ret", "=", "<-",
    "align", "default", "regs"]

def marks : List String := [" ", ", ", " [", "] ", "], ", "], [", ": ", "(", ")", "()", ") ", "() ", " [] "]

/-- The pieces without a number in them. -/
def fixed : List Piece := RegType.all.map type ++ Op.all.map op ++ words.map word ++ marks.map mark

@[simp] def Known : Piece → Prop
  | type ty => ty.Named
  | op o => o.Named
  | word s => s ∈ words
  | mark s => s ∈ marks
  | _ => True

/-- The kind of a piece that has a number in it. -/
def kind : Piece → Nat
  | reg _ => 1
  | num _ => 2
  | label _ => 3
  | _ => 0

/-- The kind of piece that a text is. -/
def kindOf (s : List Char) : Nat :=
  if s.all isNumeric then 2
  else if s.head? = some 'r' && s.tail.all isNumeric then 1
  else if s.head? = some 'L' then 3
  else 0

theorem Known.mem_fixed (hp : p.Known) (hKind : p.kind = 0) : p ∈ fixed := by
  cases p with
  | reg | num | label => cases hKind
  | _ => simpa [fixed, Known, RegType.Named, Op.Named] using hp

theorem isNumeric_toString (n : Int) : (toString n).toList.all isNumeric = true := by
  have digits (k : Nat) : k.repr.toList.all isNumeric = true := all_eq_true.mpr fun c hc => by
    rw [Nat.repr_eq_ofList_toDigits, String.toList_ofList] at hc
    simp [isNumeric, Nat.isDigit_of_mem_toDigits (by decide) (by decide) hc]
  cases n with
  | ofNat k => exact digits k
  | negSucc k => simpa [Int.toString_eq_repr, Int.repr, isNumeric] using digits (k + 1)

theorem toString_ne_nil (n : Int) : (toString n).toList ≠ [] := by
  cases n with
  | ofNat k => exact fun h => Nat.repr_ne_empty (String.toList_eq_nil_iff.mp h)
  | negSucc k => simp [Int.toString_eq_repr, Int.repr]

theorem inMarks_of_isNumeric {c : Char} (h : isNumeric c = true) : inMarks c = some false := by
  unfold inMarks
  split
  · next hStop =>
    simp only [Bool.or_eq_true, beq_iff_eq] at hStop
    rcases hStop with rfl | rfl <;> cases h
  · rw [Option.some.injEq, Bool.eq_false_iff, Ne, contains_iff_mem]
    intro hMark
    fin_cases hMark <;> cases h

/-- What is checked of the pieces that are written in one way only. -/
theorem fixed_spec : fixed.all (fun p => !p.text.isEmpty && p.text.all (inMarks · == some p.isMark) &&
    kindOf p.text == 0) = true := by
  decide +kernel

theorem Known.spec (hp : p.Known) :
    p.text ≠ [] ∧ (∀ c ∈ p.text, inMarks c = some p.isMark) ∧ kindOf p.text = p.kind := by
  have number (n : Int) : ∀ c ∈ (toString n).toList, inMarks c = some false := fun c hc =>
    inMarks_of_isNumeric (all_eq_true.mp (isNumeric_toString n) c hc)
  have hFixed := all_eq_true.mp fixed_spec p
  simp only [Bool.and_eq_true, Bool.not_eq_true', isEmpty_eq_false_iff, all_eq_true, beq_iff_eq] at hFixed
  cases p with
  | reg r => exact ⟨cons_ne_nil _ _, forall_mem_cons.mpr ⟨rfl, number r⟩, if_pos (isNumeric_toString r)⟩
  | num n => exact ⟨toString_ne_nil n, number n, if_pos (isNumeric_toString n)⟩
  | label h =>
    refine ⟨cons_ne_nil _ _, forall_mem_cons.mpr ⟨rfl, ?_⟩, rfl⟩
    split
    · exact forall_mem_singleton.mpr rfl
    · exact number h
  | _ =>
    obtain ⟨⟨hNe, hMarks⟩, hKind⟩ := hFixed (hp.mem_fixed rfl)
    exact ⟨hNe, hMarks, hKind⟩

theorem Known.text_inj (hp : p.Known) (hq : q.Known) (h : p.text = q.text) : p = q := by
  have hKind : p.kind = q.kind := by rw [← hp.spec.2.2, h, hq.spec.2.2]
  have hFixed (hp : p ∈ fixed) (hq : q ∈ fixed) : p = q :=
    inj_on_of_nodup_map (by decide +kernel : (fixed.map text).Nodup) hp hq h
  cases p <;> cases q <;> try cases hKind
  case reg.reg r s => rw [Int.repr_injective (String.toList_inj.mp (cons.inj h).2)]
  case num.num n m => rw [Int.repr_injective (String.toList_inj.mp h)]
  case label.label r s =>
    have unknown (n : Int) : ['?'] ≠ (toString n).toList := fun hText => by
      have := isNumeric_toString n
      rw [← hText] at this
      cases this
    have hTail := (cons.inj h).2
    split_ifs at hTail with hr hs
    · rw [hr, hs]
    · exact absurd hTail (unknown s)
    · exact absurd hTail.symm (unknown r)
    · rw [Int.repr_injective (String.toList_inj.mp hTail)]
  all_goals exact hFixed (hp.mem_fixed rfl) (hq.mem_fixed rfl)

end Piece

/-! ## Cutting a text -/

open Piece (text marks words Known)

variable {x y r t : List Char} {ps qs : List Piece} {m : Bool}

/-- Words and marks take turns, and all are known. What comes next is a mark or not. -/
@[simp] def Turns : Bool → List Piece → Prop
  | _, [] => True
  | m, p :: ps => p.isMark = m ∧ p.Known ∧ Turns (!m) ps

/-- Two texts begin with the same run of characters of a kind if neither run goes on in the rest. -/
theorem append_inj_of_run {P : Char → Bool} {u v : List Char} (hu : u.all P = true) (hv : v.all P = true)
    (hx : ∀ c ∈ x.head?, P c = false) (hy : ∀ c ∈ y.head?, P c = false) (h : u ++ x = v ++ y) :
    u = v ∧ x = y := by
  have run {u x : List Char} (hu : u.all P = true) (hx : ∀ c ∈ x.head?, P c = false) :
      (u ++ x).takeWhile P = u := by
    rw [takeWhile_append_of_pos (all_eq_true.mp hu)]
    cases x with
    | nil => simp
    | cons c x => simp [hx c rfl]
  have : u = v := by rw [← run hu hx, h, run hv hy]
  exact ⟨this, append_cancel_left (this ▸ h)⟩

/-- The first character tells whether there are pieces, and which kind comes first. -/
theorem Turns.head (hps : Turns m ps) (hx : ∃ c z, x = c :: z ∧ inMarks c = none) :
    ∃ c z, ps.flatMap text ++ x = c :: z ∧ inMarks c = if ps = [] then none else some m := by
  cases ps with
  | nil => exact hx
  | cons p ps =>
    obtain ⟨hNe, hMarks, -⟩ := hps.2.1.spec
    obtain ⟨c, z, hText⟩ := exists_cons_of_ne_nil hNe
    exact ⟨c, z ++ (ps.flatMap text ++ x), by simp [hText], by rw [hMarks c (by simp [hText]), hps.1]; rfl⟩

/-- A text is cut in one way. -/
theorem cut_unique (hps : Turns m ps) (hqs : Turns m qs) (hx : ∃ c z, x = c :: z ∧ inMarks c = none)
    (hy : ∃ c z, y = c :: z ∧ inMarks c = none) (h : ps.flatMap text ++ x = qs.flatMap text ++ y) :
    ps = qs ∧ x = y := by
  induction ps generalizing m qs with
  | nil =>
    obtain ⟨c, z, hText, hc⟩ := hqs.head hy
    obtain ⟨d, w, rfl, hd⟩ := hx
    obtain ⟨rfl, -⟩ := cons.inj (h.trans hText)
    cases qs with
    | nil => exact ⟨rfl, h⟩
    | cons q qs => cases hd.symm.trans hc
  | cons p ps ih =>
    cases qs with
    | nil =>
      obtain ⟨c, z, hText, hc⟩ := hps.head hx
      obtain ⟨d, w, rfl, hd⟩ := hy
      obtain ⟨rfl, -⟩ := cons.inj (h.symm.trans hText)
      cases hd.symm.trans hc
    | cons q qs =>
      obtain ⟨hp, hKnown, hps⟩ := hps
      obtain ⟨hq, hKnown', hqs⟩ := hqs
      -- pieces of marks and of other characters take turns: the next one begins where the kind changes
      have run {p : Piece} (hp : p.isMark = m) (hKnown : p.Known) : p.text.all (inMarks · == some m) = true :=
        all_eq_true.mpr fun c hc => by rw [hKnown.spec.2.1 c hc, hp, beq_self_eq_true]
      have rest {ps : List Piece} {x : List Char} (hps : Turns (!m) ps) (hx : ∃ c z, x = c :: z ∧ inMarks c = none) :
          ∀ c ∈ (ps.flatMap text ++ x).head?, (inMarks c == some m) = false := by
        obtain ⟨c, z, hHead, hc⟩ := hps.head hx
        rw [hHead]
        split at hc <;> simp [hc]
      rw [flatMap_cons, flatMap_cons, append_assoc, append_assoc] at h
      obtain ⟨hText, hRest⟩ := append_inj_of_run (run hp hKnown) (run hq hKnown') (rest hps hx) (rest hqs hy) h
      obtain ⟨rfl, rfl⟩ := ih hps hqs hRest
      exact ⟨by rw [hKnown.text_inj hKnown' hText], rfl⟩

/-! ## Lists -/

section Lists

variable {α : Type} {opening closing : String} {f : α → List Piece → List Piece} {g : α → String} {l : List α}

/-- Values one after another, between an opening and a closing mark. `f` puts the pieces of a value before others. -/
def listed (opening closing : String) (f : α → List Piece → List Piece) : List α → List Piece → List Piece
  | [], ps => .mark (opening ++ closing) :: ps
  | a :: l, ps => .mark opening :: f a (l.foldr (fun b ps => .mark ", " :: f b ps) (.mark closing :: ps))

theorem text_listed (hf : ∀ a ps, (f a ps).flatMap text = (g a).toList ++ ps.flatMap text) :
    (listed opening closing f l ps).flatMap text =
      (opening ++ ", ".intercalate (l.map g) ++ closing).toList ++ ps.flatMap text := by
  cases l with
  | nil => simp [listed, text]
  | cons a l =>
    simp only [listed, flatMap_cons, hf, map_cons, String.toList_append, text]
    induction l generalizing a with
    | nil => simp [text]
    | cons b l ih => simpa [text, hf] using ih b

theorem turns_listed (hf : ∀ a ∈ l, ∀ ps, Turns true ps → Turns false (f a ps))
    (hMarks : [opening, closing, opening ++ closing] ⊆ marks) (hps : Turns false ps) :
    Turns true (listed opening closing f l ps) := by
  simp only [cons_subset, nil_subset, and_true] at hMarks
  cases l with
  | nil => exact ⟨rfl, hMarks.2.2, hps⟩
  | cons a l =>
    refine ⟨rfl, hMarks.1, hf a mem_cons_self _ ?_⟩
    have hRest := fun b hb => hf b (mem_cons_of_mem a hb)
    clear hf
    induction l with
    | nil => exact ⟨rfl, hMarks.2.1, hps⟩
    | cons b l ih =>
      refine ⟨rfl, by simp [Known, marks], hRest b mem_cons_self _ (ih fun b' hb' => ?_)⟩
      exact hRest b' (mem_cons_of_mem b hb')

theorem listed_inj (hf : ∀ a b ps qs, f a ps = f b qs ↔ a = b ∧ ps = qs) (hComma : closing ≠ ", ") (hClosing : closing ≠ "")
    {m : List α} : listed opening closing f l ps = listed opening closing f m qs ↔ l = m ∧ ps = qs := by
  have hRest (l m : List α) : l.foldr (fun b ps => .mark ", " :: f b ps) (.mark closing :: ps) =
      m.foldr (fun b ps => .mark ", " :: f b ps) (.mark closing :: qs) ↔ l = m ∧ ps = qs := by
    induction l generalizing m with
    | nil => cases m <;> simp [hComma]
    | cons b l ih => cases m <;> simp [hComma.symm, hf, ih, and_assoc]
  have hMark : opening ≠ opening ++ closing := fun h => hClosing (by simpa using h.symm)
  cases l <;> cases m <;> simp [listed, hf, hRest, hMark, hMark.symm, and_assoc]

end Lists

/-! ## Instructions -/

/-- The beginning of an instruction that defines a register. -/
def defines (dst : Reg) (ps : List Piece) : List Piece := .reg dst :: .mark " " :: .word "=" :: .mark " " :: ps

def aligns (align : Int64) : List Piece := [.word "align", .mark " ", .num align.toInt]

def arm (a : Arm) (ps : List Piece) : List Piece := .num a.value.toInt :: .mark ": " :: .label a.target :: ps

/-- The pieces of an instruction. -/
def cut : Instr → List Piece
  | .hole => [.word "<<nil>>"]
  | .bin op ty dst l r => defines dst [.op op, .mark " ", .type ty, .mark " ", .reg l, .mark ", ", .reg r]
  | .un op ty source dst src =>
    defines dst (.op op :: .mark " " :: .type ty ::
      if source = ty then [.mark " ", .reg src] else [.mark " ", .word "<-", .mark " ", .type source, .mark " ", .reg src])
  | .imm ty dst bits => defines dst [.word "imm", .mark " ", .type ty, .mark " ", .num bits.toInt64.toInt]
  | .load ty dst addr align =>
    defines dst (.word "load" :: .mark " " :: .type ty :: .mark " [" :: .reg addr :: .mark "] " :: aligns align)
  | .store ty addr val align =>
    .word "store" :: .mark " " :: .type ty :: .mark " [" :: .reg addr :: .mark "], " :: .reg val :: .mark " " :: aligns align
  | .copy dst src size align =>
    .word "copy" :: .mark " [" :: .reg dst :: .mark "], [" :: .reg src :: .mark "] " :: .num size.toInt :: .mark " " ::
      aligns align
  | .fill dst val size align =>
    .word "fill" :: .mark " [" :: .reg dst :: .mark "], " :: .reg val :: .mark " " :: .num size.toInt :: .mark " " :: aligns align
  | .reserve dst size align => defines dst (.word "local" :: .mark " " :: .num size.toInt :: .mark " " :: aligns align)
  | .addr dst _ => defines dst [.word "addr", .mark " "]
  | .call ty dst target args =>
    let call := .word "call" :: .mark " " :: .type ty :: .mark " " :: .reg target :: listed "(" ")" (.reg · :: ·) args []
    if dst = noReg then call else defines dst call
  | .branch _ [] default => [.word "jmp", .mark " ", .label default]
  | .branch test arms default =>
    .word "br" :: .mark " " :: .reg test :: listed " [" "] " arm arms [.word "default", .mark " ", .label default]
  | .region => [.word "region"]
  | .ret ty val => .word "ret" :: if val = noReg then [] else [.mark " ", .type ty, .mark " ", .reg val]

/-- What comes after the pieces. -/
def symbol : Instr → List Char
  | .addr _ sym => '@' :: sym.toList
  | _ => []

theorem toString_int64 (n : Int64) : toString n = toString n.toInt := rfl

theorem arms_inj {l m : List Arm} : listed " [" "] " arm l ps = listed " [" "] " arm m qs ↔ l = m ∧ ps = qs := by
  refine listed_inj (fun a b ps qs => ?_) (by decide) (by decide)
  cases a
  cases b
  simp [arm, Int64.toInt_inj, and_assoc]

theorem text_label (h : Handle) : (Piece.label h).text = (label h).toList := by
  by_cases hNone : h = noHandle <;> simp [label, text, hNone]

theorem text_arm (a : Arm) (ps : List Piece) : (arm a ps).flatMap text =
    (toString a.value ++ ": " ++ label a.target).toList ++ ps.flatMap text := by
  simp only [arm, flatMap_cons, text_label]
  simp [text, toString_int64]

theorem toList_instr {x : Instr} (hx : x.Legible) : (instr x).toList = (cut x).flatMap text ++ symbol x := by
  cases x with
  | branch test arms default =>
    cases arms with
    | nil =>
      simp only [cut, flatMap_cons, text_label]
      simp [instr, symbol, text]
    | cons a arms =>
      simp only [cut, flatMap_cons, text_listed text_arm, text_label]
      simp [instr, symbol, reg, text]
  | call ty dst target args =>
    have hArg (r : Reg) (ps : List Piece) : (Piece.reg r :: ps).flatMap text = (reg r).toList ++ ps.flatMap text := by
      simp [text, reg]
    by_cases h : dst = noReg <;> simp [cut, symbol, instr, h, reg, defines, text, text_listed hArg]
  | ret ty val => by_cases h : val = noReg <;> simp [cut, symbol, instr, h, text, reg]
  | un op ty source dst src => by_cases h : source = ty <;> simp [cut, defines, symbol, instr, h, text, reg]
  | imm ty dst bits =>
    have hBits : constant ty bits = toString bits.toInt64.toInt := by
      cases ty <;> first | rfl | cases hx.2
    simp [cut, defines, symbol, instr, text, reg, hBits]
  | _ => simp [cut, defines, aligns, aligned, symbol, instr, text, reg, toString_int64]

theorem turns_cut {x : Instr} (hx : x.Legible) : Turns false (cut x) := by
  have hArgs (l : List Reg) : Turns true (listed "(" ")" (.reg · :: ·) l []) :=
    turns_listed (fun _ _ _ h => ⟨rfl, trivial, h⟩) (by decide) trivial
  have hArms (l : List Arm) (h : Handle) : Turns true (listed " [" "] " arm l [.word "default", .mark " ", .label h]) :=
    turns_listed (fun a _ _ h => by simpa [arm, marks] using h) (by decide) (by simp [words, marks])
  rcases x with _ | _ | _ | _ | _ | _ | _ | _ | _ | _ | _ | ⟨test, _ | ⟨a, arms⟩, default⟩ | _ | _ <;> simp only [cut] <;>
    (try split_ifs) <;> simp_all [defines, aligns, words, marks, Instr.Legible]

/-- No two instructions have the same pieces and the same symbol. -/
theorem cut_inj {x y : Instr} (hx : x.Legible) (hy : y.Legible) (h : cut x = cut y) (hSymbol : symbol x = symbol y) :
    x = y := by
  have hBits {b b' : UInt64} : b.toInt64 = b'.toInt64 ↔ b = b' := ⟨congrArg Int64.toUInt64, congrArg _⟩
  -- those of different kinds differ in a word, and those that leave something out in their length
  rcases x with _ | _ | _ | _ | _ | _ | _ | _ | _ | _ | _ | ⟨test, _ | ⟨a, arms⟩, default⟩ | _ | _ <;>
    rcases y with _ | _ | _ | _ | _ | _ | _ | _ | _ | _ | _ | ⟨test', _ | ⟨a', arms'⟩, default'⟩ | _ | _ <;>
    simp only [cut, defines] at h <;> (try split_ifs at h) <;> try (simp at h; done)
  all_goals simp_all [aligns, listed_inj, arms_inj, Int64.toInt_inj, symbol, String.toList_inj, Instr.Legible]

/-- The text of an instruction ends with its line. -/
theorem instr_inj {x y : Instr} (hx : x.Legible) (hy : y.Legible)
    (h : (instr x).toList ++ '\n' :: r = (instr y).toList ++ '\n' :: t) : x = y ∧ r = t := by
  have hStops (x : Instr) (r : List Char) : ∃ c z, symbol x ++ '\n' :: r = c :: z ∧ inMarks c = none := by
    cases x with
    | addr dst sym => exact ⟨'@', _, rfl, rfl⟩
    | _ => exact ⟨'\n', r, rfl, rfl⟩
  have hLine {x : Instr} (hx : x.Legible) : (symbol x).all (· != '\n') = true := by
    cases x with
    | addr dst sym =>
      refine all_eq_true.mpr fun c hc => bne_iff_ne.mpr ?_
      rintro rfl
      exact hx (by simpa [symbol] using hc)
    | _ => rfl
  rw [toList_instr hx, toList_instr hy, append_assoc, append_assoc] at h
  obtain ⟨hCut, hRest⟩ := cut_unique (turns_cut hx) (turns_cut hy) (hStops x r) (hStops y t) h
  obtain ⟨hSymbol, hRest⟩ := append_inj_of_run (hLine hx) (hLine hy) (by simp) (by simp) hRest
  exact ⟨cut_inj hx hy hCut hSymbol, (cons.inj hRest).2⟩

/-! ## Procedures -/

theorem line_inj {pos : Nat} {x y : Instr} (hx : x.Legible) (hy : y.Legible)
    (h : (line pos x).toList ++ r = (line pos y).toList ++ t) : x = y ∧ r = t := by
  have marked {x : Instr} (hRegion : x.isRegion = true) : x = .region := by
    cases x <;> first | rfl | cases hRegion
  simp only [line, String.toList_append, append_assoc, append_cancel_left_eq] at h
  by_cases hRegion : x.isRegion <;> by_cases hRegion' : y.isRegion
  · simp only [hRegion, hRegion', if_true, append_cancel_left_eq] at h
    exact ⟨by rw [marked hRegion, marked hRegion'], h⟩
  · simp [hRegion, hRegion'] at h
  · simp [hRegion, hRegion'] at h
  · simp only [hRegion, hRegion', Bool.false_eq_true, if_false, String.toList_append, append_assoc,
      append_cancel_left_eq] at h
    exact instr_inj hx hy h

theorem code_inj {l m : List Instr} (hl : ∀ x ∈ l, x.Legible) (hm : ∀ x ∈ m, x.Legible) (k : Nat)
    (h : String.join (l.mapIdx fun i => line (i + k)) = String.join (m.mapIdx fun i => line (i + k))) : l = m := by
  have apart (k : Nat) (x : Instr) (s : String) : line k x ++ s ≠ "" := by simp [line]
  have cons (k : Nat) (x : Instr) (l : List Instr) : String.join ((x :: l).mapIdx fun i => line (i + k)) =
      line k x ++ String.join (l.mapIdx fun i => line (i + (k + 1))) := by
    simp [mapIdx_cons, Nat.add_assoc, Nat.add_comm 1]
  induction l generalizing m k with
  | nil =>
    cases m with
    | nil => rfl
    | cons y m => exact absurd ((cons k y m).symm.trans h.symm) (apart k y _)
  | cons x l ih =>
    cases m with
    | nil => exact absurd ((cons k x l).symm.trans h) (apart k x _)
    | cons y m =>
      rw [cons, cons, ← String.toList_inj, String.toList_append, String.toList_append] at h
      obtain ⟨rfl, hTail⟩ := line_inj (hl x (by simp)) (hm y (by simp)) h
      rw [ih (fun z hz => hl z (by simp [hz])) (fun z hz => hm z (by simp [hz])) (k + 1) (String.toList_inj.mp hTail)]

/-- The pieces of a header after the name. -/
def cutHeader (p : Proc) : List Piece :=
  listed "(" ") " (fun a ps => .reg a.2 :: .mark " " :: .type a.1 :: ps) p.params.zipIdx
    [.type p.ret, .mark " ", .word "regs", .mark " ", .num p.numRegs]

theorem toList_header (p : Proc) :
    (header p).toList = ("proc " ++ p.name).toList ++ ((cutHeader p).flatMap text ++ ['\n']) := by
  have hParam (a : RegType × Nat) (ps : List Piece) :
      (Piece.reg a.2 :: .mark " " :: .type a.1 :: ps).flatMap text = (param a.2 a.1).toList ++ ps.flatMap text := by
    have : param a.2 a.1 = reg a.2 ++ " " ++ a.1.name := rfl
    simp [text, this, reg]
  simp [header, cutHeader, text_listed hParam, text, mapIdx_eq_zipIdx_map]

theorem turns_header {p : Proc} (hp : p.Legible) : Turns true (cutHeader p) := by
  refine turns_listed (fun a ha ps h => ?_) (by decide) (by simpa [words, marks] using hp.ret)
  simpa [marks, h] using hp.params _ (fst_mem_of_mem_zipIdx ha)

/-- Procedures of one name are listed alike only if they are the same. -/
theorem proc_faithful {p q : Proc} (hp : p.Legible) (hq : q.Legible) (hName : p.name = q.name) :
    proc p = proc q ↔ p.params = q.params ∧ p.ret = q.ret ∧ p.numRegs = q.numRegs ∧ p.code = q.code := by
  constructor
  · intro hText
    have h := congrArg String.toList hText
    simp only [proc, String.toList_append, toList_header, hName, List.append_assoc, List.append_cancel_left_eq] at h
    obtain ⟨hHeader, hCode⟩ := cut_unique (turns_header hp) (turns_header hq) ⟨'\n', _, rfl, rfl⟩ ⟨'\n', _, rfl, rfl⟩ h
    obtain ⟨hParams, hRest⟩ := (listed_inj (by simp [Prod.ext_iff, and_assoc, and_comm]) (by decide) (by decide)).mp hHeader
    refine ⟨?_, by simp_all, by simp_all, Array.toList_inj.mp (code_inj ?_ ?_ 0 (String.toList_inj.mp (List.cons.inj hCode).2))⟩
    · rw [← List.zipIdx_map_fst 0 p.params, hParams, List.zipIdx_map_fst]
    · exact fun x hx => hp.code x (Array.mem_toList_iff.mp hx)
    · exact fun x hx => hq.code x (Array.mem_toList_iff.mp hx)
  · rintro ⟨hParams, hRet, hRegs, hCode⟩
    rw [proc, proc, header, header, hName, hParams, hRet, hRegs, hCode]

/-- A procedure that tells its parameter apart by some arms. -/
def branching (arms : List Arm) : Proc where
  name := "f"
  params := [.i8]
  ret := .void
  numRegs := 3
  code :=
    #[.un .sext .i64 .i8 1 0, .branch 1 arms 2, .region, .addr 2 "g", .call .void noReg 2 [1, 0], .ret .void noReg]

theorem legible_branching {arms : List Arm} (h : arms ≠ []) : (branching arms).Legible where
  params := by simp [branching, RegType.Named, RegType.all]
  ret := by simp [branching, RegType.Named, RegType.all]
  code := by simp [branching, Instr.Legible, Op.Named, Op.all, RegType.Named, RegType.all, h]

/-- An arm more shows in the listing, even if it leads where the others do. -/
theorem proc_faithful_arms :
    (branching [⟨1, 2⟩]).Legible ∧ (branching [⟨1, 2⟩, ⟨-1, 2⟩]).Legible ∧
      proc (branching [⟨1, 2⟩]) ≠ proc (branching [⟨1, 2⟩, ⟨-1, 2⟩]) := by
  have hp : (branching [⟨1, 2⟩]).Legible := legible_branching (by decide)
  have hq : (branching [⟨1, 2⟩, ⟨-1, 2⟩]).Legible := legible_branching (by decide)
  exact ⟨hp, hq, (proc_faithful hp hq rfl).not.mpr (by decide)⟩

end Listing

end Comptime
