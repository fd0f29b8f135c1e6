import Comptime.Bytecode.Code
import Comptime.Decimal.Shortest

/-!
# Listings

The textual form of a procedure, one instruction to a line. Regions are written as labels named after their position.
-/

namespace Comptime.Listing

/-- Text put at the right end of a column of the given width. -/
def right (width : Nat) (s : String) : String :=
  String.ofList (List.replicate (width - s.length) ' ') ++ s

def reg (r : Reg) : String := "r" ++ toString r

def label (h : Handle) : String := if h = noHandle then "L?" else "L" ++ toString h

/-- A constant: floats by value, everything else as a signed number. -/
def constant (ty : RegType) (bits : UInt64) : String :=
  match ty with
  | .f32 => Decimal.ofBinary32 bits.toUInt32
  | .f64 => Decimal.ofBinary64 bits
  | _ => toString bits.toInt64

def aligned (align : Int64) : String := " align " ++ toString align

def instr : Instr → String
  | .hole => "<<nil>>"
  | .bin op ty dst l r => reg dst ++ " = " ++ op.name ++ " " ++ ty.name ++ " " ++ reg l ++ ", " ++ reg r
  | .un op ty source dst src =>
    reg dst ++ " = " ++ op.name ++ " " ++ ty.name ++ (if source ≠ ty then " <- " ++ source.name else "") ++ " " ++ reg src
  | .imm ty dst bits => reg dst ++ " = imm " ++ ty.name ++ " " ++ constant ty bits
  | .load ty dst addr align => reg dst ++ " = load " ++ ty.name ++ " [" ++ reg addr ++ "]" ++ aligned align
  | .store ty addr val align => "store " ++ ty.name ++ " [" ++ reg addr ++ "], " ++ reg val ++ aligned align
  | .copy dst src size align =>
    "copy [" ++ reg dst ++ "], [" ++ reg src ++ "] " ++ toString size ++ aligned align
  | .fill dst val size align => "fill [" ++ reg dst ++ "], " ++ reg val ++ " " ++ toString size ++ aligned align
  | .reserve dst size align => reg dst ++ " = local " ++ toString size ++ aligned align
  | .addr dst sym => reg dst ++ " = addr @" ++ sym
  | .call ty dst target args =>
    (if dst ≠ noReg then reg dst ++ " = " else "") ++ "call " ++ ty.name ++ " " ++ reg target ++
      "(" ++ ", ".intercalate (args.map reg) ++ ")"
  | .branch _ [] default => "jmp " ++ label default
  | .branch test arms default =>
    "br " ++ reg test ++ " [" ++
      ", ".intercalate (arms.map fun a => toString a.value ++ ": " ++ label a.target) ++ "] default " ++ label default
  | .region => "region"
  | .ret ty val => if val = noReg then "ret" else "ret " ++ ty.name ++ " " ++ reg val

/-- The line of an instruction. -/
def line (pos : Nat) (x : Instr) : String :=
  right 4 (toString pos) ++ " " ++ (if x.isRegion then "L" ++ toString pos ++ ":" else "\t" ++ instr x) ++ "\n"

def param (i : Nat) (ty : RegType) : String := "r" ++ toString i ++ " " ++ ty.name

def header (p : Proc) : String :=
  "proc " ++ p.name ++ "(" ++ ", ".intercalate (p.params.mapIdx param) ++ ") " ++ p.ret.name ++
    " regs " ++ toString p.numRegs ++ "\n"

def proc (p : Proc) : String :=
  header p ++ String.join (p.code.toList.mapIdx line)

end Comptime.Listing
