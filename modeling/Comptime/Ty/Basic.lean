/-!
# Types and their layout

A `Ty` is a checked type. Its `extent?` is the number of bytes a value takes and the alignment it asks for; a struct
places its fields in order, each at the next offset that suits its type. Sizes are 64-bit words and wrap.

A tree may lack a type where one is expected (`Ty.missing`): everything about such a type that needs its extent is
`none`.
-/

namespace Comptime

/-- A named component of a struct. -/
structure Field (α : Type) where
  name : String
  ty : α
deriving DecidableEq, Repr

inductive Ty where
  /-- No type was given. -/
  | missing
  | void
  | bool
  | int (bits : Int16) (signed : Bool)
  | float (bits : Int16)
  | ptr (target : Ty)
  | array (elem : Ty) (len : Int64)
  | struct (name : String) (fields : List (Field Ty))
  | func (ins outs : List Ty)
deriving Repr

instance : Inhabited Ty := ⟨.missing⟩

/-- Bytes and alignment of a value. -/
structure Extent where
  size : Int64
  align : Int64
deriving DecidableEq, Repr

/-- A field together with where it starts. -/
structure Placed where
  name : String
  offset : Int64
  ty : Ty
deriving Repr

/-- Pointers and procedures take one machine word. -/
def ptrSize : Int64 := 8

/-- The least multiple of `a` not below `n`, for a non-negative `n`; alignments below two ask for nothing. -/
def alignUp (n a : Int64) : Int64 :=
  if a ≤ 1 then n else (n + a - 1) / a * a

/-- One more field at the end of a partial layout, given as the end of the last field and the widest alignment. -/
def Extent.addField (e : Extent) (f : Extent) : Extent :=
  ⟨alignUp e.size f.align + f.size, max e.align f.align⟩

namespace Ty

mutual

/-- Bytes and alignment, `none` where the type is missing. -/
def extent? : Ty → Option Extent
  | missing => none
  | void => some ⟨0, 1⟩
  | bool => some ⟨1, 1⟩
  | int bits _ => let n := bits.toInt64 / 8; some ⟨n, n⟩
  | float bits => let n := bits.toInt64 / 8; some ⟨n, n⟩
  | ptr _ => some ⟨ptrSize, ptrSize⟩
  | array t len => (extent? t).map fun e => ⟨e.size * len, e.align⟩
  | struct _ fs => (fieldsEnd? ⟨0, 1⟩ fs).map fun e => ⟨alignUp e.size e.align, e.align⟩
  | func _ _ => some ⟨ptrSize, ptrSize⟩
termination_by structural t => t

/-- The end of the last field and the widest alignment once these fields follow `e`. -/
def fieldsEnd? (e : Extent) : List (Field Ty) → Option Extent
  | [] => some e
  | f :: fs => do
    let x ← extent? f.ty
    fieldsEnd? (e.addField x) fs
termination_by structural fs => fs

end

def size? (t : Ty) : Option Int64 := t.extent?.map (·.size)

def align? (t : Ty) : Option Int64 := t.extent?.map (·.align)

/-- The fields with their offsets, when they follow `e`. -/
def placeFrom? (e : Extent) : List (Field Ty) → Option (List Placed)
  | [] => some []
  | f :: fs => do
    let x ← f.ty.extent?
    let rest ← placeFrom? (e.addField x) fs
    return ⟨f.name, alignUp e.size x.align, f.ty⟩ :: rest

def place? (fs : List (Field Ty)) : Option (List Placed) := placeFrom? ⟨0, 1⟩ fs

/-- The first field of that name in a struct. -/
def field? (fs : List (Field Ty)) (name : String) : Option Placed := do
  (← place? fs).find? (·.name == name)

/-- A struct type, `none` when a field has no extent. -/
def struct? (name : String) (fs : List (Field Ty)) : Option Ty :=
  (place? fs).map fun _ => struct name fs

/-- Values of the type fit a single register. -/
def isScalar : Ty → Bool
  | bool | int _ _ | float _ | ptr _ | func _ _ => true
  | _ => false

def isSigned : Ty → Bool
  | int _ signed => signed
  | _ => false

def isFloat : Ty → Bool
  | float _ => true
  | _ => false

def s64 : Ty := int 64 true

end Ty

end Comptime
