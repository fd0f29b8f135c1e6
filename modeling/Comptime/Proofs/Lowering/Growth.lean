import Comptime.Lowering.Stmt
import Comptime.Proofs.Bytecode.Layout
import Comptime.Proofs.Lowering.Monad
import Comptime.Proofs.Lowering.Registers
import Mathlib.Data.Set.Insert

/-!
# How code grows under construction

The layout of a procedure under construction is a setup, which takes stack memory, and a body. What is emitted next
stands in the body after its `front`. `Grows` says how a builder is found again in a later one: instructions keep their
code and the instruction before them, but at the spots that are not settled yet. It is transitive, so that everything
that is known at some point of the construction can be said of the finished code.
-/

namespace Comptime

open List Build Builder

namespace Instr

/-- Belongs to the entry of a procedure. -/
def isSetup : Instr → Bool
  | reserve .. | store .. => true
  | _ => false

/-- A branch with one of its targets replaced. -/
def redirect (arm : Option Nat) (target : Handle) : Instr → Instr
  | branch test arms default => match arm with
    | none => branch test arms target
    | some i => branch test (arms.modify i fun a => { a with target }) default
  | x => x

end Instr

/-- What may still change about an instruction: the code in front of it, or its own. -/
inductive Spot where
  | before (h : Nat)
  | code (h : Nat)
deriving DecidableEq

def Spot.handle : Spot → Nat
  | before h | code h => h

namespace Builder

open Comptime.Stream

variable {U : Set Spot} {s : Stream} {e : Edge} {target : Nat}

/-! ## Setup and body -/

def code (b : Builder) (h : Nat) : Instr := b.stream.code.getD h .hole

def handles (b : Builder) : Nat := b.stream.handles

/-- What stands in front of the body. -/
def setup (b : Builder) : List Nat :=
  match b.anchor with
  | none => b.stream.layout
  | some a => b.stream.layout.takeWhile (· != a)

def body (b : Builder) : List Nat :=
  match b.anchor with
  | none => []
  | some a => b.stream.layout.dropWhile (· != a)

/-- The body up to where the next instruction is put. -/
def front (b : Builder) : List Nat :=
  match b.stream.anchors.head? with
  | none => b.body
  | some a => b.body.takeWhile (· != a)

/-- The body from where the next instruction is put. -/
def rest (b : Builder) : List Nat :=
  match b.stream.anchors.head? with
  | none => []
  | some a => b.body.dropWhile (· != a)

/-- The instruction the next one is put after. -/
def last (b : Builder) : Option Nat := b.front.getLast?

/-- In front of the instruction the next one is put before. -/
def cursor (b : Builder) : Set Spot := {u | ∃ h, b.stream.anchors.head? = some h ∧ u = .before h}

variable {b b' b'' : Builder} {x : Instr} {h : Nat}

theorem setup_append_body : b.setup ++ b.body = b.stream.layout := by
  rw [setup, body]
  cases b.anchor with
  | none => exact append_nil _
  | some a => exact takeWhile_append_dropWhile

theorem front_append_rest : b.front ++ b.rest = b.body := by
  rw [front, rest]
  cases b.stream.anchors.head? with
  | none => exact append_nil _
  | some a => exact takeWhile_append_dropWhile

/-- A setup, and the body on both sides of the cursor. -/
structure Arranged (b : Builder) (pro l r : List Nat) : Prop where
  layout : b.stream.layout = pro ++ (l ++ r)
  anchor : b.anchor = (l ++ r).head?
  head : r.head? = b.stream.anchors.head?
  /-- Open insertions are in the order of their anchors, the innermost one in front. -/
  opens : b.stream.anchors.Sublist r
  /-- None is in front of the whole body. -/
  inside : l = [] → r = []

/-- The body starts with the anchor, which stands nowhere else. -/
theorem split_of_layout {pro bd : List Nat} (hNodup : b.stream.layout.Nodup) (hLayout : b.stream.layout = pro ++ bd)
    (hAnchor : b.anchor = bd.head?) : b.setup = pro ∧ b.body = bd := by
  rw [hLayout] at hNodup
  rw [setup, body, hAnchor, hLayout]
  cases bd with
  | nil => exact ⟨append_nil _, rfl⟩
  | cons a ys =>
    have hNot : a ∉ pro := fun h => disjoint_of_nodup_append hNodup h mem_cons_self
    exact ⟨takeWhile_ne hNot, dropWhile_ne hNot⟩

theorem Arranged.eq {pro l r : List Nat} (hA : b.Arranged pro l r) (hNodup : b.stream.layout.Nodup) :
    b.setup = pro ∧ b.body = l ++ r ∧ b.front = l ∧ b.rest = r := by
  obtain ⟨hSetup, hBody⟩ := split_of_layout hNodup hA.layout hA.anchor
  refine ⟨hSetup, hBody, ?_⟩
  rw [hA.layout] at hNodup
  rw [front, rest, ← hA.head, hBody]
  cases r with
  | nil => exact ⟨append_nil _, rfl⟩
  | cons a ys =>
    have hNot : a ∉ l := fun h => disjoint_of_nodup_append hNodup.of_append_right h mem_cons_self
    exact ⟨takeWhile_ne hNot, dropWhile_ne hNot⟩

/-! ## Sound builders -/

/-- A builder past the entry of its procedure. -/
structure Sound (b : Builder) : Prop where
  stream : b.stream.Sound
  regs : b.regs.Sound
  entering : b.entering = false
  arranged : b.Arranged b.setup b.front b.rest
  setup : ∀ h ∈ b.setup, (b.code h).isSetup = true

theorem Arranged.sound {pro l r : List Nat} (hA : b.Arranged pro l r) (hStream : b.stream.Sound) (hRegs : b.regs.Sound)
    (hEntering : b.entering = false) (hSetup : ∀ h ∈ pro, (b.code h).isSetup = true) : Sound b := by
  obtain ⟨rfl, -, rfl, rfl⟩ := hA.eq hStream.nodup
  exact ⟨hStream, hRegs, hEntering, hA, hSetup⟩

namespace Sound

section

variable (hb : Sound b)

include hb

theorem nodup_body : b.body.Nodup := by
  have hLayout := hb.stream.nodup
  rw [← setup_append_body] at hLayout
  exact hLayout.of_append_right

theorem lt_of_mem_body (hMem : h ∈ b.body) : h < b.handles := by
  refine (hb.stream.mem _).mp ?_
  rw [← setup_append_body]
  exact mem_append_right _ hMem

theorem below : ∀ h ∈ b.body, h < b.handles := fun _ => hb.lt_of_mem_body

theorem lt_of_mem_setup (hMem : h ∈ b.setup) : h < b.handles := by
  refine (hb.stream.mem _).mp ?_
  rw [← setup_append_body]
  exact mem_append_left _ hMem

theorem lt_of_mem_front (hMem : h ∈ b.front) : h < b.handles :=
  hb.lt_of_mem_body (by rw [← front_append_rest]; exact mem_append_left _ hMem)

theorem cursor : b.stream.Cursor (b.setup ++ b.front) b.rest :=
  ⟨by rw [append_assoc]; exact hb.arranged.layout, hb.arranged.head⟩

theorem notMem_rest (hMem : h ∈ b.front) : h ∉ b.rest := fun hIn => by
  have hNodup := hb.nodup_body
  rw [← front_append_rest] at hNodup
  exact disjoint_of_nodup_append hNodup hMem hIn

theorem notMem_anchors (hMem : h ∈ b.front) : h ∉ b.stream.anchors := fun hIn =>
  hb.notMem_rest hMem (hb.arranged.opens.subset hIn)

/-- The anchor of the setup stands in front of the cursor. -/
theorem mem_front_of_anchor (ha : b.anchor = some h) : h ∈ b.front := by
  have hHead := hb.arranged.anchor
  cases hFront : b.front with
  | nil =>
    rw [hFront, hb.arranged.inside hFront, ha] at hHead
    cases hHead
  | cons y ys =>
    rw [hFront, ha] at hHead
    cases hHead
    exact mem_cons_self

end

end Sound

/-! ## Growth -/

/-- An instruction that takes stack memory, in a register from `low` on that nothing else in the setup takes but what is
older. -/
def Takes (b : Builder) (low : Nat) (old : List Nat) (h : Nat) : Prop :=
  ∃ (r : Nat) (size align : Int64), b.code h = .reserve r size align ∧ b.regs.Keeps r ∧ low ≤ r ∧ r < b.regs.high ∧
    ∀ k ∈ b.setup, k ∉ old → ∀ size' align', b.code k = .reserve r size' align' → k = h

/-- What the code is for. -/
def context (b : Builder) : Config × Sig × List (Nat × Reg) := (b.config, b.sig, b.outs)

/-- How a builder is found again in a later one. The spots in `U` may change. -/
structure Grows (U : Set Spot) (b b' : Builder) : Prop where
  handles : b.handles ≤ b'.handles
  code : ∀ h < b.handles, .code h ∉ U → b'.code h = b.code h
  order : b.body.Sublist b'.body
  /-- The instruction before `y` stays the same. -/
  gaps : ∀ xs y ys, b.body = xs ++ y :: ys → .before y ∉ U →
    ∃ xs' ys', b'.body = xs' ++ y :: ys' ∧ xs'.getLast? = xs.getLast?
  setup : b.setup <+: b'.setup
  setupCode : ∀ h ∈ b.setup, b'.code h = b.code h
  regs : b.regs.Grows b'.regs
  context : b'.context = b.context
  /-- What is added to the setup takes stack memory. -/
  added : ∀ h ∈ b'.setup, h ∉ b.setup → b'.Takes b.regs.high b.setup h
  below : ∀ h ∈ b.body, h < b.handles

namespace Grows

variable {U U' : Set Spot}

theorem config (h : Grows U b b') : b'.config = b.config := congrArg (·.1) h.context

theorem sig (h : Grows U b b') : b'.sig = b.sig := congrArg (·.2.1) h.context

theorem outs (h : Grows U b b') : b'.outs = b.outs := congrArg (·.2.2) h.context

/-- The order is the same, and the code is apart from the spots in `U`. -/
theorem of_layout (hBelow : ∀ h ∈ b.body, h < b.handles) (hHandles : b'.handles = b.handles) (hBody : b'.body = b.body)
    (hSetup : b'.setup = b.setup) (hCode : ∀ h, .code h ∉ U ∨ h ∈ b.setup → b'.code h = b.code h)
    (hRegs : b.regs.Grows b'.regs) (hContext : b'.context = b.context) : Grows U b b' where
  handles := hHandles.ge
  code h _ hU := hCode h (.inl hU)
  order := by rw [hBody]
  gaps xs _ ys h _ := ⟨xs, ys, hBody.trans h, rfl⟩
  setup := by rw [hSetup]
  setupCode h hh := hCode h (.inr hh)
  regs := hRegs
  context := hContext
  added h hh hNot := absurd (hSetup ▸ hh) hNot
  below := hBelow

theorem refl (hb : Sound b) : Grows U b b := of_layout hb.below rfl rfl rfl (fun _ _ => rfl) .refl rfl

/-- What may change later may only concern what may change now, or what is new. -/
theorem trans (h : Grows U b b') (h' : Grows U' b' b'')
    (hU : ∀ u : Spot, u.handle < b.handles → u ∈ U' → u ∈ U) : Grows U b b'' where
  handles := h.handles.trans h'.handles
  code y hy hyU := by
    rw [h'.code y (hy.trans_le h.handles) fun hIn => hyU (hU (.code y) hy hIn), h.code y hy hyU]
  order := h.order.trans h'.order
  gaps xs y ys hBody hyU := by
    have hy : y < b.handles := h.below y (by simp [hBody])
    obtain ⟨xs1, ys1, hBody1, hLast1⟩ := h.gaps xs y ys hBody hyU
    obtain ⟨xs2, ys2, hBody2, hLast2⟩ := h'.gaps xs1 y ys1 hBody1 fun hIn => hyU (hU (.before y) hy hIn)
    exact ⟨xs2, ys2, hBody2, hLast2.trans hLast1⟩
  setup := h.setup.trans h'.setup
  setupCode y hy := (h'.setupCode y (h.setup.subset hy)).trans (h.setupCode y hy)
  regs := h.regs.trans h'.regs
  context := h'.context.trans h.context
  below := h.below
  added y hy hNot := by
    -- what the first step added is in registers below those of the second one
    by_cases hMid : y ∈ b'.setup
    · obtain ⟨r, size, align, hCode, hKeeps, hLow, hLt, hOnly⟩ := h.added y hMid hNot
      refine ⟨r, size, align, (h'.setupCode y hMid).trans hCode, h'.regs.keeps r hKeeps, hLow, hLt.trans_le h'.regs.high,
        fun k hk hNew size' align' hk' => ?_⟩
      by_cases hOld : k ∈ b'.setup
      · exact hOnly k hOld hNew size' align' ((h'.setupCode k hOld).symm.trans hk')
      · obtain ⟨r', _, _, hCode', -, hLow', -⟩ := h'.added k hk hOld
        cases hCode'.symm.trans hk'
        exact absurd hLow' (Nat.not_le.mpr hLt)
    · obtain ⟨r, size, align, hCode, hKeeps, hLow, hLt, hOnly⟩ := h'.added y hy hMid
      refine ⟨r, size, align, hCode, hKeeps, h.regs.high.trans hLow, hLt, fun k hk hNew size' align' hk' => ?_⟩
      by_cases hOld : k ∈ b'.setup
      · obtain ⟨r', _, _, hCode', -, -, hLt', -⟩ := h.added k hOld hNew
        cases hCode'.symm.trans ((h'.setupCode k hOld).symm.trans hk')
        exact absurd hLow (Nat.not_le.mpr hLt')
      · exact hOnly k hk hOld size' align' hk'

theorem mono (h : Grows U b b') (hU : U ⊆ U') : Grows U' b b' :=
  { h with
    code := fun y hy hyU => h.code y hy fun hIn => hyU (hU hIn)
    gaps := fun xs y ys hBody hyU => h.gaps xs y ys hBody fun hIn => hyU (hU hIn) }

theorem andThen (h : Grows ∅ b b') (h' : Grows U b' b'') : Grows U b b'' :=
  (h.mono (Set.empty_subset _)).trans h' fun _ _ h => h

end Grows

/-- Code inserted at one point of the body keeps every other gap. -/
theorem gaps_insert {l r zs : List Nat} (hBody : b.body = l ++ r) (hBody' : b'.body = l ++ zs ++ r)
    (hU : ∀ a, r.head? = some a → .before a ∈ U) (xs : List Nat) (y : Nat) (ys : List Nat) (h : b.body = xs ++ y :: ys)
    (hy : .before y ∉ U) : ∃ xs' ys', b'.body = xs' ++ y :: ys' ∧ xs'.getLast? = xs.getLast? := by
  rw [hBody] at h
  rcases append_eq_append_iff.mp h with ⟨us, rfl, hr⟩ | ⟨us, rfl, hr⟩
  · cases us with
    | nil =>
      rw [nil_append] at hr
      exact absurd (hU y (by rw [hr]; rfl)) hy
    | cons u us =>
      refine ⟨l ++ zs ++ u :: us, ys, by rw [hBody', hr]; simp, ?_⟩
      rw [getLast?_append_of_ne_nil _ (by simp), getLast?_append_of_ne_nil _ (by simp)]
  · cases us with
    | nil =>
      rw [nil_append] at hr
      exact absurd (hU y (by rw [← hr]; rfl)) hy
    | cons u us =>
      rw [cons_append, cons.injEq] at hr
      obtain ⟨rfl, rfl⟩ := hr
      exact ⟨xs, us ++ zs ++ r, by rw [hBody']; simp, rfl⟩

/-! ## Emitting -/

/-- The builder after an instruction was emitted. -/
def emitted (b : Builder) (x : Instr) : Builder :=
  { b with
    stream := (b.stream.emit x).1
    anchor := if b.anchor.isNone && !b.entering then some b.handles else b.anchor
    dead := deadAfter b.dead x }

theorem emitRaw_eq : Build.emitRaw x b = .ok b.handles { b with stream := (b.stream.emit x).1 } := by
  have hPair : b.stream.emit x = ((b.stream.emit x).1, b.handles) := by
    rw [Stream.emit]
    split <;> rfl
  rw [Build.emitRaw, Build.get_bind, hPair]
  rfl

theorem emit_eq : Build.emit x b = .ok b.handles (b.emitted x) := by
  rw [Build.emit, Build.bind_apply, emitRaw_eq]
  rfl

theorem emit_bind {β : Type} {f : Nat → Build β} : (emit x >>= f) b = f b.handles (b.emitted x) := by
  rw [bind_apply, emit_eq]

theorem discard_emit : Functor.discard (emit x) b = .ok () (b.emitted x) := discard_eq_ok.mpr ⟨_, emit_eq⟩

theorem code_of_push (hCode : b'.stream.code = b.stream.code.push x) :
    b'.code h = if h = b.handles then x else b.code h := by
  rw [code, hCode, Array.getD_eq_getD_getElem?, Array.getElem?_push, code, Array.getD_eq_getD_getElem?]
  change (if h = b.handles then _ else _ : Option Instr).getD _ = _
  split <;> rfl

theorem code_emitted : (b.emitted x).code h = if h = b.handles then x else b.code h := by
  refine code_of_push ?_
  rw [emitted, Stream.emit]
  split <;> rfl

theorem handles_emitted : (b.emitted x).handles = b.handles + 1 := by
  rw [handles, emitted, Stream.emit]
  split <;> exact Array.size_push _

namespace Sound

variable (hb : Sound b)

include hb

/-- An instruction is put at the cursor. -/
theorem arranged_emitted :
    (b.emitted x).stream.Sound ∧ (b.emitted x).Arranged b.setup (b.front ++ [b.handles]) b.rest := by
  obtain ⟨hSound, ⟨hLayout, hHead⟩, -, hAnchors⟩ := hb.stream.emit (x := x) hb.cursor
  refine ⟨hSound, hLayout.trans (by simp [handles]), ?_, hHead, ?_, fun h => absurd h (by simp)⟩
  · have hOld := hb.arranged.anchor
    rw [emitted]
    cases hFront : b.front with
    | nil =>
      rw [hFront, hb.arranged.inside hFront] at hOld
      simp [hOld, hb.entering]
    | cons y ys =>
      rw [hFront] at hOld
      simp [hOld]
  · change (b.stream.emit x).1.anchors.Sublist _
    rw [hAnchors]
    exact hb.arranged.opens

theorem setup_emitted : (b.emitted x).setup = b.setup := (hb.arranged_emitted.2.eq hb.arranged_emitted.1.nodup).1

theorem body_emitted : (b.emitted x).body = b.front ++ [b.handles] ++ b.rest :=
  (hb.arranged_emitted.2.eq hb.arranged_emitted.1.nodup).2.1

theorem front_emitted : (b.emitted x).front = b.front ++ [b.handles] :=
  (hb.arranged_emitted.2.eq hb.arranged_emitted.1.nodup).2.2.1

theorem last_emitted : (b.emitted x).last = some b.handles := by
  rw [last, hb.front_emitted, getLast?_concat]

theorem emitted : Sound (b.emitted x) :=
  hb.arranged_emitted.2.sound hb.arranged_emitted.1 hb.regs hb.entering fun h hh => by
    rw [code_emitted, if_neg (Nat.ne_of_lt (hb.lt_of_mem_setup hh))]
    exact hb.setup h hh

end Sound

/-! ## Lowering in place -/

/-- A builder after code was put at its cursor, and into the spots in `U`. -/
structure Lowered (U : Set Spot) (b b' : Builder) : Prop where
  sound : b'.Sound
  anchors : b'.stream.anchors = b.stream.anchors
  rest : b'.rest = b.rest
  grows : Grows (U ∪ b.cursor) b b'
  next : b.regs.next ≤ b'.regs.next
  hold : b'.regs.hold = b.regs.hold
  targets : b'.targets = b.targets
  slots : b'.slots = b.slots
  linked : b'.linked = b.linked

namespace Lowered

variable {U U' : Set Spot}

theorem refl (hb : Sound b) : Lowered U b b := ⟨hb, rfl, rfl, .refl hb, le_refl _, rfl, rfl, rfl, rfl⟩

theorem trans (h : Lowered U b b') (h' : Lowered U' b' b'')
    (hU : ∀ u : Spot, u.handle < b.handles → u ∈ U' → u ∈ U) : Lowered U b b'' where
  sound := h'.sound
  anchors := h'.anchors.trans h.anchors
  rest := h'.rest.trans h.rest
  grows := h.grows.trans h'.grows fun u hu hIn => by
    rw [cursor, h.anchors] at hIn
    exact hIn.imp (hU u hu) id
  next := h.next.trans h'.next
  hold := h'.hold.trans h.hold
  targets := h'.targets.trans h.targets
  slots := h'.slots.trans h.slots
  linked := h'.linked.trans h.linked

/-- Nothing but what is new is touched. -/
theorem andThen (h : Lowered U b b') (h' : Lowered ∅ b' b'') : Lowered U b b'' :=
  h.trans h' fun _ _ h => h.elim

theorem mono (h : Lowered U b b') (hU : U ⊆ U') : Lowered U' b b' :=
  { h with grows := h.grows.mono (Set.union_subset_union_left _ hU) }

theorem cursor (h : Lowered U b b') : b'.cursor = b.cursor := by rw [Builder.cursor, Builder.cursor, h.anchors]

end Lowered

theorem lowered_emitted (hb : Sound b) : Lowered ∅ b (b.emitted x) where
  sound := hb.emitted
  anchors := (hb.stream.emit hb.cursor).2.2.2
  rest := (hb.arranged_emitted.2.eq hb.arranged_emitted.1.nodup).2.2.2
  grows := {
    handles := by rw [handles_emitted]; omega
    code := fun h hh _ => by rw [code_emitted, if_neg (Nat.ne_of_lt hh)]
    order := by
      rw [hb.body_emitted, ← front_append_rest]
      exact (sublist_append_left _ _).append_right _
    gaps := gaps_insert front_append_rest.symm hb.body_emitted fun a ha => .inr ⟨a, hb.arranged.head ▸ ha, rfl⟩
    setup := by rw [hb.setup_emitted]
    setupCode := fun h hh => by rw [code_emitted, if_neg (Nat.ne_of_lt (hb.lt_of_mem_setup hh))]
    regs := .refl
    context := rfl
    added := fun h hh hNot => absurd (hb.setup_emitted ▸ hh) hNot
    below := hb.below }
  next := le_refl _
  hold := rfl
  targets := rfl
  slots := rfl
  linked := rfl

section

variable (hStream : b'.stream = b.stream) (hAnchor : b'.anchor = b.anchor)

include hStream hAnchor

theorem body_of_stream : b'.body = b.body := by rw [body, body, hStream, hAnchor]

theorem setup_of_stream : b'.setup = b.setup := by rw [setup, setup, hStream, hAnchor]

end

/-- The code is the same, and for the same. -/
structure Alike (b b' : Builder) : Prop where
  stream : b'.stream = b.stream
  anchor : b'.anchor = b.anchor
  entering : b'.entering = b.entering
  context : b'.context = b.context

namespace Alike

variable (hSame : Alike b b')

include hSame

theorem body : b'.body = b.body := body_of_stream hSame.stream hSame.anchor

theorem setup : b'.setup = b.setup := setup_of_stream hSame.stream hSame.anchor

theorem sound (hb : Sound b) (hRegs : b'.regs.Sound) : Sound b' := by
  have hA : b'.Arranged b.setup b.front b.rest := by
    obtain ⟨hLayout, hAnchor, hHead, hOpens, hInside⟩ := hb.arranged
    rw [← hSame.stream] at hLayout hHead hOpens
    exact ⟨hLayout, hSame.anchor.trans hAnchor, hHead, hOpens, hInside⟩
  refine hA.sound (hSame.stream ▸ hb.stream) hRegs (hSame.entering.trans hb.entering) fun h hh => ?_
  rw [code, hSame.stream]
  exact hb.setup h hh

theorem grows (hBelow : ∀ h ∈ b.body, h < b.handles) (hRegs : b.regs.Grows b'.regs) : Grows U b b' :=
  .of_layout hBelow (by rw [handles, handles, hSame.stream]) hSame.body hSame.setup
    (fun h _ => by rw [code, code, hSame.stream]) hRegs hSame.context

theorem lowered (hb : Sound b) (hRegs : b'.regs.Sound) (hGrows : b.regs.Grows b'.regs) (hNext : b.regs.next ≤ b'.regs.next)
    (hHold : b'.regs.hold = b.regs.hold) (hScope : b'.targets = b.targets ∧ b'.slots = b.slots ∧ b'.linked = b.linked) :
    Lowered ∅ b b' where
  sound := hSame.sound hb hRegs
  anchors := by rw [hSame.stream]
  rest := by rw [rest, rest, hSame.stream, hSame.body]
  grows := hSame.grows hb.below hGrows
  next := hNext
  hold := hHold
  targets := hScope.1
  slots := hScope.2.1
  linked := hScope.2.2

end Alike

/-! ## Patching -/

/-- The builder after an edge was given its target. -/
def patched (b : Builder) (e : Edge) (target : Nat) : Builder :=
  { b with stream := { b.stream with
    code := b.stream.code.setIfInBounds e.branch ((b.code e.branch).redirect e.arm target) } }

theorem at_eq_ok : s.at? (h : Int) = .ok x ↔ h < s.handles ∧ s.code.getD h .hole = x := by
  constructor
  · intro hRun
    obtain ⟨k, hk, hLt, hRun⟩ := check_bind_eq_ok hRun
    obtain rfl : h = k := by exact_mod_cast hk
    cases hRun
    exact ⟨hLt, rfl⟩
  · rintro ⟨hLt, rfl⟩
    rw [at?, check_of_lt hLt]
    rfl

theorem modifyStream_eq_ok {f : Stream → Except Stream.Misuse Stream} {u : Unit}
    (hRun : modifyStream f b = .ok u b') : ∃ s, f b.stream = .ok s ∧ b' = { b with stream := s } := by
  obtain ⟨s, b1, hOn, hRest⟩ := bind_eq_ok.mp hRun
  obtain ⟨hf, rfl⟩ := onStream_eq_ok.mp hOn
  cases hRest
  exact ⟨s, hf, rfl⟩

theorem modifyStream_eq {f : Stream → Except Stream.Misuse Stream} (hRun : f b.stream = .ok s) :
    modifyStream f b = .ok () { b with stream := s } := by
  rw [modifyStream, bind_apply, onStream_eq_ok.mpr ⟨hRun, rfl⟩]
  rfl

/-- The instruction is a branch. -/
def IsBranch (b : Builder) (h : Nat) : Prop := ∃ test arms default, b.code h = .branch test arms default

/-- The edge is a target of a branch. -/
structure Patchable (b : Builder) (e : Edge) : Prop where
  lt : e.branch < b.handles
  code : ∃ test arms default, b.code e.branch = .branch test arms default ∧ ∀ i, e.arm = some i → i < arms.length

theorem Patchable.isBranch (he : b.Patchable e) : b.IsBranch e.branch := by
  obtain ⟨test, arms, default, hCode, -⟩ := he.code
  exact ⟨test, arms, default, hCode⟩

structure IsRegion (b : Builder) (h : Nat) : Prop where
  lt : h < b.handles
  code : b.code h = .region

theorem patch_eq (he : b.Patchable e) (ht : b.IsRegion target) : patch e target b = .ok () (b.patched e target) := by
  obtain ⟨hLt, test, arms, default, hCode, hArm⟩ := he
  have hSet : ∀ x, modifyStream (·.set? (e.branch : Int) x) b =
      .ok () { b with stream := { b.stream with code := b.stream.code.setIfInBounds e.branch x } } := fun x =>
    modifyStream_eq (by rw [set?, check_of_lt hLt]; rfl)
  rw [patched, hCode]
  unfold patch
  rw [bind_apply, onStream_eq_ok.mpr ⟨at_eq_ok.mpr ⟨hLt, hCode⟩, rfl⟩]
  dsimp only
  rw [bind_apply, onStream_eq_ok.mpr ⟨at_eq_ok.mpr ⟨ht.lt, ht.code⟩, rfl⟩]
  cases hSome : e.arm with
  | none => exact hSet _
  | some i =>
    simp only [Instr.isRegion, hArm i hSome, if_true]
    exact hSet _

/-- A successful patch is of a branch, to a region. -/
theorem patch_eq_ok {u : Unit} (hRun : patch e target b = .ok u b') :
    b.Patchable e ∧ b.IsRegion target ∧ b' = b.patched e target := by
  have hParts : b.Patchable e ∧ b.IsRegion target := by
    obtain ⟨found, _, hFound, hRun⟩ := bind_eq_ok.mp hRun
    obtain ⟨hAt, rfl⟩ := onStream_eq_ok.mp hFound
    obtain ⟨hBranch, hCode⟩ := at_eq_ok.mp hAt
    cases found with
    | branch test arms default =>
      obtain ⟨there, _, hThere, hRun⟩ := bind_eq_ok.mp hRun
      obtain ⟨hAt', rfl⟩ := onStream_eq_ok.mp hThere
      obtain ⟨hTarget, hRegion⟩ := at_eq_ok.mp hAt'
      cases there with
      | region =>
        refine ⟨⟨hBranch, test, arms, default, hCode, fun i hi => ?_⟩, hTarget, hRegion⟩
        by_contra hNot
        simp only [Instr.isRegion, hi, hNot, if_false] at hRun
        cases hRun
      | _ => cases hRun
    | _ => cases hRun
  rw [patch_eq hParts.1 hParts.2] at hRun
  cases hRun
  exact ⟨hParts.1, hParts.2, rfl⟩

theorem code_patched :
    (b.patched e target).code h = if h = e.branch ∧ h < b.handles then (b.code h).redirect e.arm target else b.code h := by
  have hOld : ∀ k, b.code k = (b.stream.code[k]?).getD .hole := fun k => by rw [code, Array.getD_eq_getD_getElem?]
  rw [code, patched, Array.getD_eq_getD_getElem?, Array.getElem?_setIfInBounds]
  by_cases hEq : e.branch = h
  · subst hEq
    by_cases hLt : e.branch < b.stream.code.size
    · rw [if_pos rfl, if_pos hLt, if_pos ⟨rfl, hLt⟩]
      rfl
    · rw [if_pos rfl, if_neg hLt, if_neg (fun h => hLt h.2), hOld, Array.getElem?_eq_none (Nat.not_lt.mp hLt)]
  · rw [if_neg hEq, if_neg (fun h => hEq h.1.symm), hOld]

theorem handles_patched {t : Nat} : (b.patched e t).handles = b.handles :=
  Array.size_setIfInBounds

theorem code_patched_ne (hne : h ≠ e.branch) : (b.patched e target).code h = b.code h := by
  rw [code_patched, if_neg fun hEq => hne hEq.1]

/-- The setup has no branches. -/
theorem Sound.ne_of_setup {k : Nat} (hb : Sound b) (hh : h ∈ b.setup) (hBranch : b.IsBranch k) : h ≠ k := by
  rintro rfl
  have hOld := hb.setup h hh
  obtain ⟨test, arms, default, hCode⟩ := hBranch
  rw [hCode] at hOld
  cases hOld

theorem Sound.patched (hb : Sound b) (hBranch : b.IsBranch e.branch) : Sound (b.patched e target) where
  stream := ⟨by rw [show (b.patched e target).stream.handles = b.stream.handles from handles_patched]; exact hb.stream.size,
    hb.stream.place, hb.stream.nodup,
    fun h => by rw [show (b.patched e target).stream.handles = b.stream.handles from handles_patched]; exact hb.stream.mem h,
    hb.stream.anchored⟩
  regs := hb.regs
  entering := hb.entering
  arranged := { hb.arranged with }
  setup h hh := by
    rw [code_patched_ne (hb.ne_of_setup hh hBranch)]
    exact hb.setup h hh

theorem lowered_patched (hb : Sound b) (hBranch : b.IsBranch e.branch) :
    Lowered {.code e.branch} b (b.patched e target) where
  sound := hb.patched hBranch
  anchors := rfl
  rest := rfl
  grows := .of_layout hb.below handles_patched rfl rfl (fun h hh => code_patched_ne (by
    rcases hh with hU | hh
    · exact fun hEq => hU (.inl (by rw [hEq]; rfl))
    · exact hb.ne_of_setup hh hBranch)) .refl rfl
  next := le_refl _
  hold := rfl
  targets := rfl
  slots := rfl
  linked := rfl

/-! ## Insertions -/

/-- The builder once an insertion was opened. -/
def opened (b : Builder) (h : Nat) : Builder :=
  { b with stream := { b.stream with insertions := ⟨h, []⟩ :: b.stream.insertions }, dead := false }

theorem openBefore_eq {s' : Stream} (hRun : s.openBefore? (h : Int) = .ok s') :
    s' = { s with insertions := ⟨h, []⟩ :: s.insertions } := by
  obtain ⟨k, hk, -, rfl⟩ := openBefore_eq_ok hRun
  obtain rfl : h = k := by exact_mod_cast hk
  rfl

theorem insertBefore_eq_ok {α : Type} {code : Build α} {a : α} (hRun : insertBefore h code b = .ok a b') :
    ∃ b2 s, code (b.opened h) = .ok a b2 ∧ b2.stream.commit? = .ok s ∧ b' = { b2 with stream := s, dead := b.dead } := by
  obtain ⟨_, b1, hOpen, hRun⟩ := bind_eq_ok.mp hRun
  obtain ⟨s, hs, rfl⟩ := modifyStream_eq_ok hOpen
  rw [openBefore_eq hs] at hRun
  rw [get_bind] at hRun
  rw [modify_bind] at hRun
  obtain ⟨a', b2, hCode, hRun⟩ := bind_eq_ok.mp hRun
  obtain ⟨_, b3, hCommit, hRun⟩ := bind_eq_ok.mp hRun
  obtain ⟨s', hs', rfl⟩ := modifyStream_eq_ok hCommit
  rw [modify_bind] at hRun
  cases hRun
  exact ⟨b2, s', hCode, hs', rfl⟩

/-- Opening an insertion moves the cursor and nothing else. -/
theorem Sound.opened {xs ys : List Nat} (hb : Sound b) (hSplit : b.front = xs ++ h :: ys) (hne : xs ≠ []) :
    Sound (b.opened h) ∧ (b.opened h).setup = b.setup ∧ (b.opened h).body = b.body ∧ (b.opened h).front = xs ∧
      (b.opened h).rest = h :: (ys ++ b.rest) := by
  have hBody : b.front ++ b.rest = xs ++ h :: (ys ++ b.rest) := by rw [hSplit]; simp
  have hLayout := hb.arranged.layout
  rw [hBody, ← append_assoc] at hLayout
  obtain ⟨s', hOpen, hSound, hCursor, -, hAnchors⟩ := hb.stream.openBefore hLayout
  obtain rfl := openBefore_eq hOpen
  have hA : (b.opened h).Arranged b.setup xs (h :: (ys ++ b.rest)) :=
    ⟨hCursor.layout.trans (append_assoc _ _ _), hBody ▸ hb.arranged.anchor, hCursor.head,
      (hb.arranged.opens.trans (sublist_append_right _ _)).cons_cons h, fun h => absurd h hne⟩
  rw [← front_append_rest (b := b), hBody]
  exact ⟨hA.sound hSound hb.regs hb.entering hb.setup, hA.eq hSound.nodup⟩

/-- What is lowered in front of an instruction. -/
theorem insertBefore_lowered {α : Type} {code : Build α} {a : α} {xs ys : List Nat} (hb : Sound b)
    (hSplit : b.front = xs ++ h :: ys) (hne : xs ≠ []) (hRun : Build.insertBefore h code b = .ok a b') :
    ∃ b2, code (b.opened h) = .ok a b2 ∧ (Lowered U (b.opened h) b2 → Lowered (U ∪ {.before h}) b b' ∧ Grows ∅ b2 b' ∧
      b'.front = b2.front ++ h :: ys ∧ b'.handles = b2.handles ∧ b'.regs = b2.regs ∧ b'.dead = b.dead) := by
  obtain ⟨b2, s, hCode, hCommit, rfl⟩ := insertBefore_eq_ok hRun
  refine ⟨b2, hCode, fun hLow => ?_⟩
  obtain ⟨hOpened, hSetup0, hBody0, -, hRest0⟩ := hb.opened hSplit hne
  have hOther : h ∉ b.stream.anchors := hb.notMem_anchors (by rw [hSplit]; simp)
  obtain ⟨s', hCommit', hStream, hLayout, hSame, hAnchors⟩ := hLow.sound.stream.commit hLow.anchors hOther
  obtain rfl : s = s' := Except.ok.inj (hCommit.symm.trans hCommit')
  have hBody : b2.front ++ b2.rest = (b2.front ++ h :: ys) ++ b.rest := by rw [hLow.rest, hRest0]; simp
  -- the commit moves what was held in front of `h` and changes no code
  have hA : Arranged { b2 with stream := s, dead := b.dead } b2.setup (b2.front ++ h :: ys) b.rest := by
    refine ⟨?_, hBody ▸ hLow.sound.arranged.anchor, hAnchors ▸ hb.arranged.head, hAnchors ▸ hb.arranged.opens,
      fun h => absurd h (by simp)⟩
    rw [← hBody]
    exact hLayout.trans hLow.sound.arranged.layout
  obtain ⟨hSetup', hBody', hFront', hRest'⟩ := hA.eq hStream.nodup
  have hCodes : ∀ k, Builder.code { b2 with stream := s, dead := b.dead } k = b2.code k := fun k =>
    congrArg (fun c : Array Instr => c.getD k .hole) hSame
  have hHandles : Builder.handles { b2 with stream := s, dead := b.dead } = b2.handles := congrArg Array.size hSame
  have hGrows0 : Grows (U ∪ {.before h} ∪ b.cursor) b (b.opened h) :=
    .of_layout hb.below rfl hBody0 hSetup0 (fun _ _ => rfl) .refl rfl
  have hGrows : Grows ∅ b2 { b2 with stream := s, dead := b.dead } :=
    .of_layout hLow.sound.below hHandles (hBody'.trans (hBody.symm.trans front_append_rest)) hSetup' (fun k _ => hCodes k)
      .refl rfl
  refine ⟨⟨?_, hAnchors, hRest', (hGrows0.trans hLow.grows ?_).trans hGrows fun _ _ h => h.elim, hLow.next, hLow.hold,
    hLow.targets, hLow.slots, hLow.linked⟩, hGrows, hFront', hHandles, rfl, rfl⟩
  · exact hA.sound hStream hLow.sound.regs hLow.sound.entering fun k hk => (hCodes k).symm ▸ hLow.sound.setup k hk
  · rintro u - (hIn | ⟨a', ha', hIn⟩)
    · exact .inl (.inl hIn)
    · obtain rfl : h = a' := Option.some.inj ha'
      exact .inl (.inr hIn)

/-! ## The setup -/

/-- An instruction was added to the end of the setup. -/
theorem lowered_of_setup {regs : Registers} (hb : Sound b) (hSound : s.Sound) (hCode : s.code = b.stream.code.push x)
    (hx : ∃ (r : Nat) (size align : Int64), x = .reserve r size align ∧ regs.Keeps r ∧ b.regs.high ≤ r)
    (hLayout : s.layout = b.setup ++ [b.handles] ++ b.body) (hAnchors : s.anchors = b.stream.anchors) (hRegs : regs.Sound)
    (hGrows : b.regs.Grows regs) (hNext : b.regs.next ≤ regs.next) (hHold : regs.hold = b.regs.hold) :
    Lowered ∅ b { b with stream := s, regs } ∧ body { b with stream := s, regs } = b.body ∧
      setup { b with stream := s, regs } = b.setup ++ [b.handles] ∧
      code { b with stream := s, regs } b.handles = x := by
  have hA : Arranged { b with stream := s, regs } (b.setup ++ [b.handles]) b.front b.rest :=
    ⟨hLayout.trans (by rw [front_append_rest]), hb.arranged.anchor, hAnchors ▸ hb.arranged.head,
      hAnchors ▸ hb.arranged.opens, hb.arranged.inside⟩
  obtain ⟨hSetup, hBody, -, hRest⟩ := hA.eq hSound.nodup
  rw [front_append_rest] at hBody
  have hCodes : ∀ k, code { b with stream := s, regs } k = if k = b.handles then x else b.code k :=
    fun _ => code_of_push hCode
  have hHandles : b.handles ≤ handles { b with stream := s, regs } := by
    rw [handles, handles]
    change b.stream.code.size ≤ s.code.size
    rw [hCode, Array.size_push]
    omega
  -- the one new handle is that of the new instruction
  have hOld : ∀ k < b.handles, code { b with stream := s, regs } k = b.code k := fun k hk => by
    rw [hCodes, if_neg (Nat.ne_of_lt hk)]
  refine ⟨⟨hA.sound hSound hRegs hb.entering fun k hk => ?_, hAnchors, hRest,
    ⟨hHandles, fun k hk _ => hOld k hk, by rw [hBody], fun xs y ys h _ => ⟨xs, ys, hBody.trans h, rfl⟩,
      hSetup ▸ prefix_append _ _, fun k hk => hOld k (hb.lt_of_mem_setup hk), hGrows, rfl, fun k hk hNot => ?_, hb.below⟩,
    hNext, hHold, rfl, rfl, rfl⟩, hBody, hSetup, by rw [hCodes, if_pos rfl]⟩
  · rw [hCodes]
    split
    · obtain ⟨r, size, align, rfl, -⟩ := hx
      rfl
    · next hne => exact hb.setup k ((mem_append.mp hk).resolve_right (by simpa using hne))
  · have hOnly : ∀ j ∈ setup { b with stream := s, regs }, j ∉ b.setup → j = b.handles := fun j hj hNew => by
      rw [hSetup] at hj
      simpa using (mem_append.mp hj).resolve_left hNew
    obtain ⟨r, size, align, rfl, hKeeps, hHigh⟩ := hx
    refine ⟨r, size, align, ?_, hKeeps, hHigh, hRegs.lt_high r hKeeps, fun j hj hNew _ _ _ => ?_⟩
    · rw [hCodes, if_pos (hOnly k hk hNot)]
    · exact (hOnly j hj hNew).trans (hOnly k hk hNot).symm

/-- The instruction that takes stack memory for the next permanent register. -/
def reservation (b : Builder) (e : Extent) : Instr := .reserve b.regs.allocPermanent.2 e.size e.align

theorem reserve_eq {e : Extent} : reserve e b =
    (match b.anchor with
      | none => do
        discard (emitRaw (b.reservation e))
        return (b.regs.high : Int)
      | some a => do
        modifyStream (·.openBefore? a)
        discard (emitRaw (b.reservation e))
        modifyStream (·.commit?)
        return (b.regs.high : Int) : Build Reg) { b with regs := b.regs.allocPermanent.1 } := by
  cases b with
  | mk config stream regs dead anchor => cases anchor <;> rfl

/-- Stack memory is taken at the end of the setup. -/
theorem reserve_run {e : Extent} (hb : Sound b) : ∃ s : Stream, s.Sound ∧ s.code = b.stream.code.push (b.reservation e) ∧
    s.layout = b.setup ++ [b.handles] ++ b.body ∧ s.anchors = b.stream.anchors ∧
    Build.reserve e b = .ok (b.regs.high : Int) { b with stream := s, regs := b.regs.allocPermanent.1 } := by
  rw [reserve_eq]
  cases hAnchor : b.anchor with
  | none =>
    have hBody : b.body = [] := by rw [body, hAnchor]
    obtain ⟨hFront, hRest⟩ := append_eq_nil_iff.mp (front_append_rest.trans hBody)
    obtain ⟨hSound, hCursor, hCode, hAnchors⟩ := hb.stream.emit (x := b.reservation e) hb.cursor
    refine ⟨_, hSound, hCode, ?_, hAnchors, rfl⟩
    rw [hCursor.layout, hFront, hRest, hBody, append_nil, append_nil, append_nil]
    rfl
  | some a =>
    -- the body starts with the anchor, and no open insertion is there
    obtain ⟨ys, hBody⟩ : ∃ ys, b.body = a :: ys := by
      have hHead := hb.arranged.anchor
      rw [hAnchor, front_append_rest] at hHead
      exact head?_eq_some_iff.mp hHead.symm
    have hLayout : b.stream.layout = b.setup ++ a :: ys := by rw [← setup_append_body, hBody]
    obtain ⟨s, hOpened, hSound1, hCursor1, hCode1, hAnchors1⟩ := hb.stream.openBefore hLayout
    obtain ⟨hSound2, hCursor2, hCode2, hAnchors2⟩ := hSound1.emit (x := b.reservation e) hCursor1
    obtain ⟨s', hCommitted, hSound3, hLayout3, hCode3, hAnchors3⟩ :=
      hSound2.commit (hAnchors2.trans hAnchors1) (hb.notMem_anchors (hb.mem_front_of_anchor hAnchor))
    have hHandle : s.handles = b.handles := by rw [Stream.handles, hCode1, handles, Stream.handles]
    refine ⟨s', hSound3, hCode3.trans (hCode2.trans (by rw [hCode1])), ?_, hAnchors3, ?_⟩
    · rw [hLayout3, hCursor2.layout, hBody, hHandle]
    · refine Build.bind_eq_ok.mpr ⟨(), _, modifyStream_eq (f := (·.openBefore? a)) hOpened, ?_⟩
      refine Build.bind_eq_ok.mpr ⟨(), _, rfl, Build.bind_eq_ok.mpr ⟨(), _, ?_, rfl⟩⟩
      exact modifyStream_eq (f := (·.commit?)) hCommitted

/-- What is known then. The register was never used. -/
theorem reserve_lowered {e : Extent} {r : Reg} (hb : Sound b) (hRun : reserve e b = .ok r b') :
    Lowered ∅ b b' ∧ b'.body = b.body ∧ b'.setup = b.setup ++ [b.handles] ∧ b'.code b.handles = b.reservation e ∧
      r = b.regs.high ∧ b'.regs = b.regs.allocPermanent.1 ∧ b'.dead = b.dead := by
  obtain ⟨s, hSound, hCode, hLayout, hAnchors, hRun'⟩ := reserve_run (e := e) hb
  rw [hRun'] at hRun
  cases hRun
  obtain ⟨hLow, hBody, hSetup, hNew⟩ := lowered_of_setup hb hSound hCode
    ⟨_, _, _, rfl, Registers.keeps_allocPermanent.mpr (.inl rfl), le_rfl⟩ hLayout hAnchors hb.regs.allocPermanent
    Registers.grows_allocPermanent (le_refl _) rfl
  exact ⟨hLow, hBody, hSetup, hNew, rfl, rfl, rfl⟩

end Builder

end Comptime
