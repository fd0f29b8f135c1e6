import Comptime.Proofs.Bytecode.Paths
import Comptime.Proofs.Lowering.Switch

/-!
# The shape of lowered procedures

While a procedure is entered, everything that is emitted belongs to its setup. Once it is entered, nothing is in the body,
and from there on the code is as `stmt_moves` says.
-/

namespace Comptime

open List Build Shape Registers Comptime.Stream

variable {u : Unit}

namespace Builder

variable {b b' b'' c F : Builder}
variable {h r : Nat}

/-! ## The entry -/

/-- A builder at the entry of its procedure. -/
structure Entering (b : Builder) : Prop where
  stream : b.stream.Sound
  done : b.stream.insertions = []
  regs : b.regs.Sound
  entering : b.entering = true
  anchor : b.anchor = none
  dead : b.dead = false
  linked : b.linked = false
  targets : b.targets = []
  setup : ∀ h ∈ b.setup, (b.code h).isSetup = true

/-- How the entry of a procedure is found again later. -/
structure Enters (b b' : Builder) : Prop where
  setup : b.setup <+: b'.setup
  code : ∀ h ∈ b.setup, b'.code h = b.code h
  high : b.regs.high ≤ b'.regs.high
  keeps : ∀ r, b.regs.Keeps r → b'.regs.Keeps r
  sig : b'.sig = b.sig
  config : b'.config = b.config

namespace Enters

theorem refl : Enters b b := ⟨prefix_rfl, fun _ _ => rfl, le_refl _, fun _ h => h, rfl, rfl⟩

theorem trans (h : Enters b b') (h' : Enters b' b'') : Enters b b'' where
  setup := h.setup.trans h'.setup
  code y hy := (h'.code y (h.setup.subset hy)).trans (h.code y hy)
  high := h.high.trans h'.high
  keeps r hr := h'.keeps r (h.keeps r hr)
  sig := h'.sig.trans h.sig
  config := h'.config.trans h.config

end Enters

theorem Grows.enters {U : Set Spot} (h : Grows U b b') : Enters b b' :=
  ⟨h.setup, h.setupCode, h.regs.high, h.regs.keeps, h.sig, h.config⟩

/-- The entry of a procedure up to some point. -/
def entry (b : Builder) (n : Nat) : Point := ⟨b.setup.length, n, b.regs.high⟩

/-- What is in the setup stays where it is. -/
theorem Enters.code_at {x y : List Nat} (hE : Enters b F) (hF : F.Closed) (hSetup : b.setup = x ++ h :: y)
    (hx : (b.code h).isSetup = true) : (F.text []).code[x.length]? = some (b.code h) := by
  obtain ⟨z, hSetup'⟩ := hE.setup
  rw [hF.setup_at (x := x) (y := y ++ z) (h := h) (by rw [← hSetup', hSetup]; simp), resolved,
    hE.code h (by rw [hSetup]; simp)]
  cases hCode : b.code h with
  | branch => rw [hCode] at hx; cases hx
  | _ => rfl

/-- A stretch of the entry: it is of a shape, and adds slots. -/
structure Stretch {α : Type} (X : Shape α) (a : α) (slots : List (Nat × Reg)) (b b' : Builder) : Prop where
  entering : Entering b'
  enters : Enters b b'
  slots : b'.slots = slots ++ b.slots
  outs : b'.outs = b.outs
  shape : ∀ F n, Closed F → Enters b' F → X (F.text []) (b.entry n) a (b'.entry n)

theorem Stretch.seq {α β : Type} {X : Shape α} {Y : α → Shape β} {a : α} {a' : β} {l l' : List (Nat × Reg)}
    (h : Stretch X a l b b') (h' : Stretch (Y a) a' l' b' b'') : Stretch (X >>= Y) a' (l' ++ l) b b'' where
  entering := h'.entering
  enters := h.enters.trans h'.enters
  slots := by rw [h'.slots, h.slots, append_assoc]
  outs := h'.outs.trans h.outs
  shape F n hF hE := ⟨a, _, h.shape F n hF (h'.enters.trans hE), h'.shape F n hF hE⟩

namespace Entering

variable (hb : Entering b)

include hb

theorem setup_eq : b.setup = b.stream.layout := by rw [Builder.setup, hb.anchor]

theorem lt_of_mem (hh : h ∈ b.setup) : h < b.handles := (hb.stream.mem _).mp (hb.setup_eq ▸ hh)

/-- An instruction is put at the end of the setup. -/
theorem emit {α : Type} {X : Shape α} {a : α} {x : Instr} {regs : Registers} (hx : x.isSetup = true) (hRegs : regs.Sound)
    (hGrows : b.regs.Grows regs)
    (hX : ∀ T n, (∀ r, regs.Keeps r → T.fixed r) → T.code[b.setup.length]? = some x →
      X T (b.entry n) a ⟨b.setup.length + 1, n, regs.high⟩) :
    Stretch X a [] b { b with stream := (b.stream.emit x).1, regs } := by
  have hCursor : b.stream.Cursor b.setup [] := ⟨by rw [hb.setup_eq, append_nil], by
    rw [Stream.anchors, hb.done]
    rfl⟩
  obtain ⟨hSound, ⟨hLayout, -⟩, hCode, hAnchors⟩ := hb.stream.emit (x := x) hCursor
  generalize hb' : ({ b with stream := (b.stream.emit x).1, regs } : Builder) = b'
  have hSetup : b'.setup = b.setup ++ [b.handles] := by
    rw [← hb', Builder.setup, hb.anchor]
    exact hLayout.trans (append_nil _)
  have hOld : ∀ h ∈ b.setup, b'.code h = b.code h := fun h hh =>
    hb' ▸ (code_of_push hCode).trans (if_neg (Nat.ne_of_lt (hb.lt_of_mem hh)))
  have hNew : b'.code b.handles = x := hb' ▸ (code_of_push hCode).trans (if_pos rfl)
  subst hb'
  refine ⟨{ hb with stream := hSound, done := ?_, regs := hRegs, setup := fun h hh => ?_ },
    ⟨hSetup ▸ prefix_append _ _, hOld, hGrows.high, hGrows.keeps, rfl, rfl⟩, rfl, rfl, fun F n hF hE => ?_⟩
  · have hNil : (b.stream.emit x).1.anchors = [] := by rw [hAnchors, Stream.anchors, hb.done]; rfl
    exact map_eq_nil_iff.mp hNil
  · rw [hSetup] at hh
    rcases mem_append.mp hh with hh | hh
    · rw [hOld h hh]
      exact hb.setup h hh
    · rw [mem_singleton.mp hh, hNew]
      exact hx
  · have hAt := hE.code_at hF hSetup (by rw [hNew]; exact hx)
    rw [hNew] at hAt
    rw [entry, entry, hSetup, length_append]
    exact hX _ n hE.keeps hAt

/-- Changes that leave the setup alone. -/
theorem noted {regs : Registers} (slots outs : List (Nat × Reg)) (hRegs : regs.Sound)
    (hHigh : b.regs.high ≤ regs.high) (hKeeps : ∀ r, b.regs.Keeps r → regs.Keeps r) :
    Entering { b with regs, slots, outs } ∧ Enters b { b with regs, slots, outs } :=
  ⟨{ hb with regs := hRegs }, prefix_rfl, fun _ _ => rfl, hHigh, hKeeps, rfl, rfl⟩

/-- A step that adds slots and no code. -/
theorem bind {α : Type} {X : Shape α} {a : α} (slots : List (Nat × Reg)) (hX : ∀ T p, X T p a p) :
    Stretch X a slots b { b with slots := slots ++ b.slots } := by
  obtain ⟨hEntering, hEnters⟩ := hb.noted (slots ++ b.slots) b.outs hb.regs (le_refl _) fun _ h => h
  exact ⟨hEntering, hEnters, rfl, rfl, fun F n _ _ => hX _ _⟩

theorem pure {α : Type} (a : α) (slots : List (Nat × Reg)) :
    Stretch (pure a) a slots b { b with slots := slots ++ b.slots } := hb.bind slots fun _ _ => ⟨rfl, rfl⟩

end Entering

/-- Memory that is taken at the entry. -/
theorem reserve_enters {e : Extent} {r : Reg} (hb : Entering b) (hRun : reserve e b = .ok r b') :
    Stretch (reserveHere e) r [] b b' := by
  rw [reserve_eq] at hRun
  generalize hb0 : ({ b with regs := b.regs.allocPermanent.1 } : Builder) = b0 at hRun
  rw [hb.anchor] at hRun
  obtain ⟨_, b1, hEmit, hRun⟩ := bind_eq_ok.mp hRun
  obtain ⟨_, hEmit⟩ := discard_eq_ok.mp hEmit
  rw [emitRaw_eq] at hEmit
  cases hEmit
  cases hRun
  subst hb0
  exact hb.emit rfl hb.regs.allocPermanent grows_allocPermanent fun T n hKeeps hAt =>
    ⟨rfl, hKeeps _ (keeps_allocPermanent.mpr (.inl rfl)), hAt, rfl⟩

/-- A value that arrived in a register is stored. -/
theorem store_enters {t : RegType} {addr val : Reg} {align : Int64} (hb : Entering b)
    (hRun : store t addr val align b = .ok u b') : Stretch (instr (.store t addr val align)) () [] b b' := by
  rw [store, discard_emit] at hRun
  cases hRun
  have hEmitted : b.emitted (.store t addr val align) = { b with stream := (b.stream.emit (.store t addr val align)).1 } := by
    rw [emitted, hb.anchor, hb.entering]
    rfl
  rw [hEmitted]
  exact hb.emit (X := instr (.store t addr val align)) rfl hb.regs .refl fun T n _ hAt => ⟨hAt, rfl⟩

theorem enterParam_enters {p : Param} {ps : List Param} {vs : List Variable} (hb : Entering b)
    (hHigh : p.rule = .indirect → r < b.regs.high) (hRun : Build.enterParams r (p :: ps) vs b = .ok u b') :
    ∃ b1 slot, Stretch (enterParam r p vs.head?) slot slot b b1 ∧
      Build.enterParams (r + p.width) ps vs.tail b1 = .ok u b' := by
  rw [Build.enterParams] at hRun
  obtain ⟨rule, ty, reg⟩ := p
  generalize vs.head? = v at hRun ⊢
  have hDemand : ∀ e, ty.extent? = some e → Stretch (demand ty.extent?) e [] b b := fun e he =>
    hb.bind [] fun _ _ => ⟨he, rfl⟩
  rcases rule with _ | _ | _
  -- nothing is passed: the variable takes no bytes but has an address
  · cases v with
    | none => exact ⟨b, [], hb.pure [] [], hRun⟩
    | some v =>
      obtain ⟨e, _, hExtent, hRest⟩ := Build.bind_eq_ok.mp hRun
      obtain ⟨rfl, hSize⟩ := Build.orFault_eq_ok hExtent
      obtain ⟨slot, b1, hReserve, hRest⟩ := Build.bind_eq_ok.mp hRest
      have hSlot := reserve_enters hb hReserve
      obtain ⟨_, b2, hBind, hRest⟩ := Build.bind_eq_ok.mp hRest
      cases hBind
      have hMade := (hDemand e hSize).seq (Y := fun e => reserveHere ⟨0, e.align⟩ >>= fun s => Pure.pure [(v.id, s)])
        (hSlot.seq (hSlot.entering.pure [(v.id, slot)] [(v.id, slot)]))
      exact ⟨_, [(v.id, slot)], hMade, hRest⟩
  -- the value comes in a register and is stored to memory of its own
  · cases v with
    | none => exact ⟨b, [], hb.pure [] [], hRun⟩
    | some v =>
      obtain ⟨e, _, hExtent, hRest⟩ := Build.bind_eq_ok.mp hRun
      obtain ⟨rfl, hSize⟩ := Build.orFault_eq_ok hExtent
      obtain ⟨slot, b1, hReserve, hRest⟩ := Build.bind_eq_ok.mp hRest
      have hSlot := reserve_enters hb hReserve
      obtain ⟨_, b2, hStore, hRest⟩ := Build.bind_eq_ok.mp hRest
      have hStored := store_enters hSlot.entering hStore
      obtain ⟨_, b3, hBind, hRest⟩ := Build.bind_eq_ok.mp hRest
      cases hBind
      have hMade := (hDemand e hSize).seq
        (Y := fun e => reserveHere e >>= fun s => instr (.store reg s r e.align) >>= fun _ => Pure.pure [(v.id, s)])
        (hSlot.seq (hStored.seq (hStored.entering.pure _ [(v.id, slot)])))
      exact ⟨_, [(v.id, slot)], hMade, hRest⟩
  -- the address comes in a register, which is kept for the whole body
  · obtain ⟨_, b1, hKeep, hRest⟩ := Build.bind_eq_ok.mp hRun
    cases hKeep
    obtain ⟨hEntering, hEnters⟩ := hb.noted ((v.map fun v => (v.id, (r : Reg))).toList ++ b.slots) b.outs
      (hb.regs.keep (hHigh rfl)) (le_refl _) fun _ hr => Registers.keeps_keep.mpr (.inr hr)
    refine ⟨_, _, ⟨hEntering, hEnters, rfl, rfl, fun F n hF hE => ?_⟩, ?_⟩
    · exact ⟨_, _, ⟨rfl, rfl⟩, (), _, ⟨hE.keeps r (Registers.keeps_keep.mpr (.inl rfl)), rfl⟩, rfl, rfl⟩
    · cases v with
      | none => exact hRest
      | some v =>
        obtain ⟨_, b1, hBind, hRest⟩ := Build.bind_eq_ok.mp hRest
        cases hBind
        exact hRest

theorem enterParams_enters {ps : List Param} {vs : List Variable} (hb : Entering b)
    (hHigh : r + (ps.map Param.width).sum ≤ b.regs.high) (hRun : enterParams r ps vs b = .ok u b') :
    ∃ slots, Stretch (enterParams r ps vs) slots slots b b' := by
  induction ps generalizing r vs b with
  | nil =>
    cases hRun
    exact ⟨[], hb.pure [] []⟩
  | cons p ps ih =>
    rw [map_cons, sum_cons, ← Nat.add_assoc] at hHigh
    obtain ⟨b1, slot, hP, hRest⟩ := enterParam_enters hb (fun hRule => by
      rw [Param.width, if_neg (by rw [hRule]; decide)] at hHigh
      omega) hRun
    obtain ⟨slots, hPs⟩ := ih hP.entering (hHigh.trans hP.enters.high) hRest
    have hMade := hPs.seq (Y := fun l => Pure.pure (l ++ slot)) (hPs.entering.pure _ [])
    exact ⟨slots ++ slot, hP.seq (Y := fun l => Shape.enterParams _ _ _ >>= _) hMade⟩

theorem keepOuts_enters {hs : List Hidden} (hb : Entering b) (hHigh : r + hs.length ≤ b.regs.high)
    (hRun : keepOuts r hs b = .ok u b') :
    Entering b' ∧ Enters b b' ∧ b'.setup = b.setup ∧ b'.slots = b.slots ∧ b'.regs.high = b.regs.high ∧
      b'.outs = (hs.mapIdx fun i h => (h.result, ((r + i : Nat) : Reg))).reverse ++ b.outs ∧
        ∀ i < hs.length, b'.regs.Keeps (r + i) := by
  induction hs generalizing r b with
  | nil =>
    cases hRun
    exact ⟨hb, .refl, rfl, rfl, rfl, rfl, nofun⟩
  | cons h hs ih =>
    rw [length_cons] at hHigh
    obtain ⟨_, b1, hKeep, hRest⟩ := bind_eq_ok.mp hRun
    cases hKeep
    obtain ⟨hEntering, hEnters⟩ := hb.noted b.slots ((h.result, (r : Int)) :: b.outs)
      (hb.regs.keep (n := r) (by omega)) (le_refl _) fun _ hr => keeps_keep.mpr (.inr hr)
    obtain ⟨hEntering', hEnters', hSetup', hSlots', hHigh', hOuts', hKeeps'⟩ := ih hEntering (by
      change r + 1 + hs.length ≤ b.regs.high
      omega) hRest
    refine ⟨hEntering', hEnters.trans hEnters', hSetup', hSlots', hHigh', ?_, fun i hi => ?_⟩
    · rw [hOuts', mapIdx_cons, reverse_cons, append_assoc]
      simp only [Nat.add_zero, Nat.add_assoc, Nat.add_comm 1, singleton_append]
    · cases i with
      | zero => exact hEnters'.keeps _ (keeps_keep.mpr (.inl rfl))
      | succ i =>
        have hKeep := hKeeps' i (Nat.lt_of_succ_lt_succ hi)
        rwa [Nat.add_assoc, Nat.add_comm 1] at hKeep

/-- A builder once its procedure was entered. -/
structure Entered (config : Config) (sig : Sig) (params : List Variable) (b : Builder) : Prop where
  ready : Ready 0 [] b
  body : b.body = []
  dead : b.dead = false
  linked : b.linked = false
  targets : b.targets = []
  sig_eq : b.sig = sig
  config_eq : b.config = config
  outs : b.outs = (sig.hidden.mapIdx fun i h => (h.result, (i : Reg))).reverse
  keeps : ∀ i < sig.hidden.length, b.regs.Keeps i
  shape : ∀ F n, Closed F → Enters b F →
    enterParams sig.hidden.length sig.params params (F.text []) ⟨0, n, sig.regParams.length⟩ b.slots (b.entry n)

theorem enter_entered {config : Config} {sig : Sig} {params : List Variable}
    (hRun : enter params { config, sig } = .ok u b') : Entered config sig params b' := by
  obtain ⟨_, _, hGet, hRun⟩ := bind_eq_ok.mp hRun
  cases hGet
  rw [modify_bind] at hRun
  have hStart : Entering { config, sig, entering := true, regs := .ofParams sig.regParams.length } :=
    ⟨sound_empty, rfl, ⟨le_refl _, fun r hr => by rw [Keeps, ofParams, Bitset.contains_empty] at hr; cases hr⟩,
      rfl, rfl, rfl, rfl, rfl, nofun⟩
  obtain ⟨_, b2, hOuts, hRun⟩ := bind_eq_ok.mp hRun
  obtain ⟨hEntering2, hEnters2, hSetup2, hSlots2, hHigh2, hOuts2, hKeeps2⟩ := keepOuts_enters hStart (by
    rw [Nat.zero_add]
    exact (Nat.le_add_right _ _).trans_eq sig.length_regParams.symm) hOuts
  obtain ⟨_, b3, hParams, hRun⟩ := bind_eq_ok.mp hRun
  obtain ⟨slots, hEntering3, hEnters3, hSlots3, hOuts3, hShape3⟩ := enterParams_enters hEntering2 (by
    rw [hHigh2]
    exact sig.length_regParams.ge) hParams
  obtain ⟨_, b4, hReclaim, hRun⟩ := bind_eq_ok.mp hRun
  cases hReclaim
  cases hRun
  have hBody : body { b3 with regs := b3.regs.reclaim, entering := false } = [] := by
    rw [body]
    simp only [hEntering3.anchor]
  -- registers are handed back, which leaves the code as it is
  have hSetup : setup { b3 with regs := b3.regs.reclaim, entering := false } = b3.setup :=
    setup_of_stream (by rfl) (by rfl)
  have hAnchors : b3.stream.anchors = [] := by rw [anchors, hEntering3.done]; rfl
  have hOuts' := hOuts3.trans hOuts2
  simp only [Nat.zero_add, append_nil] at hOuts' hKeeps2
  have hSlots : b3.slots = slots := by rw [hSlots3, hSlots2, append_nil]
  have hEnters : Enters b3 { b3 with regs := b3.regs.reclaim, entering := false } :=
    ⟨hSetup ▸ prefix_rfl, fun _ _ => rfl, grows_reclaim.high, grows_reclaim.keeps, rfl, rfl⟩
  have hA : Arranged { b3 with regs := b3.regs.reclaim, entering := false } b3.setup [] [] :=
    ⟨hEntering3.setup_eq.symm.trans (append_nil _).symm, hEntering3.anchor, (congrArg head? hAnchors).symm,
      hAnchors ▸ nil_sublist _, fun _ => rfl⟩
  have hOpens : Opens (opens [] b3) { b3 with regs := b3.regs.reclaim, entering := false } := by
    rw [opens, edges, hEntering3.targets]
    exact .nil
  refine ⟨⟨⟨hA.sound hEntering3.stream hEntering3.regs.reclaim rfl hEntering3.setup, hEntering3.done⟩,
      hOpens, hEntering3.targets ▸ forall_mem_nil _, Nat.zero_le _, fun _ => rfl⟩, hBody, hEntering3.dead, hEntering3.linked,
    hEntering3.targets, ?_, ?_, hOuts', ?_, ?_⟩
  · exact hEnters3.sig.trans hEnters2.sig
  · exact hEnters3.config.trans hEnters2.config
  · exact fun i hi => hEnters.keeps _ (hEnters3.keeps _ (hKeeps2 i hi))
  · intro F n hF hE
    have hShape := hShape3 F n hF (hEnters.trans hE)
    rw [entry, hSetup2, hHigh2, ← hSlots] at hShape
    rw [entry, hSetup, show high _ = _ from high_reclaim]
    exact hShape

/-! ## Freezing -/

theorem text_code_at (p : Nat) : (F.text []).code[p]? = (F.stream.order[p]?).map F.resolved := by
  rw [text, getElem?_toArray, getElem?_map]

theorem resolved_eq_region : F.resolved h = .region ↔ F.code h = .region := by
  rw [resolved, Instr.relocate_eq_region]

theorem resolved_eq_reserve {r : Reg} {size align : Int64} :
    F.resolved h = .reserve r size align ↔ F.code h = .reserve r size align := by
  rw [resolved]
  cases F.code h <;> simp [Instr.relocate]

theorem Closed.translates (hF : F.Closed) : F.stream.Translates F.position := by
  intro t p hPlace
  obtain ⟨k, rfl⟩ := exists_natCast_of_placeOf hPlace
  rw [position_natCast, place, ← hF.sound.stream.placeOf_eq hPlace]

/-- Freezing gives the finished code. -/
theorem Closed.freeze_eq {code : Array Instr} (hF : F.Closed) (hRun : F.stream.freeze? = .ok code) :
    code = (F.text []).code := ((hF.sound.stream.freeze_gives hF.done hF.translates code).mp hRun).2

/-- What leads to a region in the finished code leads to one. -/
theorem Closed.leads {t : Handle} {p : Nat} (hF : F.Closed) (hPos : F.position t = p)
    (hRegion : (F.text []).code[p]? = some .region) : F.stream.Leads t := by
  have hNonneg : 0 ≤ t := by
    by_contra hNeg
    rw [position, if_pos (Int.not_le.mp hNeg)] at hPos
    exact hNeg (hPos ▸ Int.natCast_nonneg p)
  obtain ⟨k, rfl⟩ := Int.eq_ofNat_of_zero_le hNonneg
  rw [position_natCast] at hPos
  have hPlace : F.stream.order.idxOf k = p := Int.ofNat_inj.mp hPos
  rw [text_code_at, Option.map_eq_some_iff] at hRegion
  obtain ⟨k', hOrder, hCode⟩ := hRegion
  obtain ⟨hLt, hk'⟩ := List.getElem?_eq_some_iff.mp hOrder
  subst hPlace
  obtain rfl : k = k' := by rw [← hk', getElem_idxOf]
  exact ⟨hNonneg, Int.ofNat_lt.mpr (hF.sound.stream.lt_of_mem_order (mem_of_getElem? hOrder)), resolved_eq_region.mp hCode⟩

/-- Freezing succeeds if every branch leads to a region. -/
theorem Closed.freeze_ok (hF : F.Closed) (hAll : ∀ (i : Nat) (x : Instr), (F.text []).code[i]? = some x →
    ∀ t ∈ x.targets, ∃ p : Nat, t = p ∧ (F.text []).code[p]? = some .region) :
    F.stream.freeze? = .ok (F.text []).code := by
  refine (hF.sound.stream.freeze_gives hF.done hF.translates _).mpr ⟨fun h hIn t ht => ?_, rfl⟩
  obtain ⟨i, hi⟩ := mem_iff_getElem?.mp hIn
  have hTarget : F.position t ∈ (F.resolved h).targets := by
    rw [resolved, Instr.targets_relocate]
    exact mem_map_of_mem ht
  obtain ⟨p, hPos, hRegion⟩ := hAll i (F.resolved h) (by rw [text_code_at, hi]; rfl) _ hTarget
  exact hF.leads hPos hRegion

end Builder

/-! ## Procedures -/

namespace Build

open Builder

/-- Lowering a procedure up to where the code is frozen. -/
def unfrozen (p : ProcDecl) (body : List Stmt) : Build Unit := do
  enter p.params
  discard (inScope 0 () (stmts body 1))
  if !(← get).dead then implicitReturn

theorem procedure_eq_ok {p : ProcDecl} {body : List Stmt} {r : Built} {b b' : Builder} : procedure p body b = .ok r b' ↔
    ∃ code, unfrozen p body b = .ok () b' ∧ b'.stream.freeze? = .ok code ∧
      r = ⟨{ name := p.name, params := b'.sig.regParams, ret := b'.sig.retReg, code, numRegs := b'.regs.high }, b'.sig,
        b'.callees, b'.globals⟩ := by
  simp only [procedure, unfrozen, bind_eq_ok, get_bind, when_eq_ok, onStream_eq_ok]
  constructor
  · rintro ⟨_, b1, hEnter, _, b2, hBody, b3, hEnd, code, _, ⟨hFreeze, rfl⟩, hRun⟩
    cases hRun
    exact ⟨code, ⟨_, b1, hEnter, _, b2, hBody, hEnd⟩, hFreeze, rfl⟩
  · rintro ⟨code, ⟨_, b1, hEnter, _, b2, hBody, hEnd⟩, hFreeze, rfl⟩
    exact ⟨_, b1, hEnter, _, b2, hBody, _, hEnd, code, _, ⟨hFreeze, rfl⟩, rfl⟩

/-- The end of a procedure that is reached. -/
theorem implicitReturn_reaches {floor : Nat} {L : List (List Stmt)} {b b' : Builder} (hb : Ready floor [] b)
    (hDead : b.dead = false) (hRun : implicitReturn b = .ok u b') :
    Reached floor [] b [] b' fun F _ => ∃ n p, Shape.implicitReturn (F.text []) ⟨(F.site b L).pos, n, (F.site b L).high⟩ () p ∧
      p.pos = (F.site b' L).pos := by
  rw [implicitReturn, get_bind] at hRun
  dsimp only at hRun
  by_cases hVoid : b.sig.retReg = .void
  · rw [if_pos hVoid] at hRun
    obtain ⟨r, _, hPure, hRun⟩ := bind_eq_ok.mp hRun
    cases hPure
    rw [ret, discard_emit] at hRun
    cases hRun
    refine (hb.settle (x := .ret b.sig.retReg noReg) (L := L)).growing.imp ?_
    rintro F ts ⟨⟨-, hAt, hSite⟩, hGrows⟩
    have hSig : (F.text []).sig = b.sig := hGrows.sig
    refine ⟨0, ⟨(F.site b L).pos + 1, 0, (F.site b L).high⟩, ⟨_, _, ⟨rfl, rfl⟩, Shape.ite_iff.mpr ?_⟩, ?_⟩
    · rw [hSig, if_pos hVoid]
      exact ⟨hAt, rfl⟩
    · exact (congrArg Site.pos hSite).symm
  · rw [if_neg hVoid] at hRun
    obtain ⟨r, b1, hImm, hRun⟩ := bind_eq_ok.mp hRun
    rw [ret, discard_emit] at hRun
    cases hRun
    have hReach1 := hb.shape (L := L) imm_traces hImm hDead
    have hReach2 := (hReach1.ready.settle (x := .ret b.sig.retReg r) (L := L)).growing
    refine (hReach1.seq hReach2).imp ?_
    rintro F ts ⟨⟨hShape, hSite1⟩, ⟨-, hAt, hSite2⟩, hGrows⟩
    have hSig : (F.text []).sig = b.sig := hGrows.sig.trans hReach1.advance.grows.sig
    refine ⟨b.regs.next, { F.atEnd b1 with pos := (F.atEnd b1).pos + 1 }, ⟨_, _, ⟨rfl, rfl⟩, Shape.ite_iff.mpr ?_⟩, ?_⟩
    · rw [hSig, if_neg hVoid]
      exact ⟨r, F.atEnd b1, hShape, hAt, rfl⟩
    · exact (congrArg Site.pos hSite2).symm

end Build

theorem Builder.Closed.end_eq {F : Builder} (hF : F.Closed) : F.point F.last = (F.text []).code.size := by
  have hFront : F.front = F.body := by rw [front, anchors, hF.done]; rfl
  have hSize : (F.text []).code.size = F.setup.length + F.body.length := by
    rw [text, size_toArray, length_map, hF.order_eq, length_append]
  rw [hSize, last, hFront]
  rcases eq_nil_or_concat' F.body with hNil | ⟨xs, x, hBody⟩
  · rw [hNil]
    rfl
  · rw [hBody, getLast?_concat, point, hF.place_eq hBody, length_append]
    rfl

/-- What `b` lacks of the finished setup takes memory, each time in a register of its own. -/
theorem Builder.Closed.reserved {U : Set Spot} {b F : Builder} (hF : F.Closed) (hGrows : Grows U b F) (i : Nat)
    (hLe : b.setup.length ≤ i) (hLt : i < F.setup.length) :
    ∃ (r : Nat) (size align : Int64), (F.text []).code[i]? = some (.reserve r size align) ∧ F.regs.Keeps r ∧
      b.regs.high ≤ r ∧ ∀ j, b.setup.length ≤ j → j < F.setup.length →
        ∀ size' align', (F.text []).code[j]? = some (.reserve r size' align') → j = i := by
  have hNodup : F.setup.Nodup := by
    have hOrder := hF.sound.stream.nodup_order
    rw [hF.order_eq] at hOrder
    exact (List.nodup_append.mp hOrder).1
  -- `b.setup` is the front of the setup, so what stands behind it is new
  have hNew : ∀ j (hj : j < F.setup.length), b.setup.length ≤ j → F.setup[j] ∉ b.setup := fun j hj hLe hIn => by
    obtain ⟨k, hk, hEq⟩ := List.getElem_of_mem hIn
    rw [hGrows.setup.getElem hk] at hEq
    have hSame := (hNodup.getElem_inj_iff).mp hEq
    omega
  have hAt : ∀ j (hj : j < F.setup.length), (F.text []).code[j]? = some (F.resolved F.setup[j]) := fun j hj => by
    have hSplit : F.setup = F.setup.take j ++ F.setup[j] :: F.setup.drop (j + 1) := by
      rw [List.getElem_cons_drop, List.take_append_drop]
    have hAt := hF.setup_at (l := []) hSplit
    rwa [List.length_take_of_le hj.le] at hAt
  obtain ⟨r, size, align, hCode, hKeeps, hHigh, -, hOnly⟩ := hGrows.added _ (List.getElem_mem hLt) (hNew i hLt hLe)
  refine ⟨r, size, align, ?_, hKeeps, hHigh, fun j hLe' hLt' size' align' hj => ?_⟩
  · rw [hAt i hLt, resolved, hCode]
    rfl
  · rw [hAt j hLt', Option.some.injEq] at hj
    exact (hNodup.getElem_inj_iff).mp
      (hOnly _ (List.getElem_mem hLt') (hNew j hLt' hLe') size' align' (resolved_eq_reserve.mp hj))

/-- Where the body of an entered procedure starts in the finished code. -/
theorem Builder.Entered.site_eq {config : Config} {sig : Sig} {params : List Variable} {b F : Builder}
    (hE : Entered config sig params b) : F.site b [] = ⟨(F.text []).start, b.regs.high, false, b.slots, false, []⟩ := by
  have hFront : b.front = [] := (List.append_eq_nil_iff.mp (front_append_rest.trans hE.body)).1
  have hLast : b.last = none := by rw [last, hFront]; rfl
  rw [site, hLast, hE.dead, hE.linked]
  rfl

namespace Build

open Builder

/-- Lowering a procedure leaves its shape. -/
theorem unfrozen_lowers {p : ProcDecl} {body : List Stmt} {config : Config} {sig : Sig} {F : Builder}
    (hRun : unfrozen p body { config, sig } = .ok u F) :
    F.Closed ∧ F.sig = sig ∧ F.config = config ∧ ∃ entry slots stop, (F.text []).Lowers p.params body entry slots stop := by
  obtain ⟨_, b₁, hEnter, hRun⟩ := bind_eq_ok.mp hRun
  have hE := enter_entered hEnter
  obtain ⟨_, b₂, hBody, hRun⟩ := bind_eq_ok.mp hRun
  obtain ⟨s, hBody⟩ := discard_eq_ok.mp hBody
  rw [get_bind] at hRun
  obtain ⟨L, hs, hReach⟩ := inScope_moves (stmts_move body) (show Scopes.Holds 0 () [] from rfl) 0 [] b₁ s b₂ hE.ready hBody
  obtain rfl : L = [] := hs
  -- the end may be reached, and then there is one more instruction or two
  have hEnd : Reached 0 [] b₂ [] F fun F' _ => if b₂.dead then F'.point F.last = F'.point b₂.last
      else ∃ n p, Shape.implicitReturn (F'.text []) ⟨F'.point b₂.last, n, b₂.regs.high⟩ () p ∧ F'.point F.last = p.pos := by
    cases hDead : b₂.dead with
    | true =>
      rw [hDead] at hRun
      cases hRun
      exact hReach.ready.stay fun _ _ => rfl
    | false =>
      rw [hDead] at hRun
      refine (implicitReturn_reaches (L := []) hReach.ready hDead hRun).imp ?_
      rintro F' ts ⟨n, p, hShape, hPos⟩
      exact ⟨n, p, hShape, hPos.symm⟩
  have hAll := hReach.seq hEnd
  have hClosed := hAll.ready.closed
  have hGrows := hAll.advance.grows
  have hTargets : F.targets = [] := by
    have hTs := hAll.targets
    rw [hE.targets] at hTs
    exact List.forall₂_nil_left_iff.mp hTs
  -- nothing is left to be patched, so the builder is its own finished one
  obtain ⟨hFlow, hEnding⟩ := hAll.flow F [] ⟨hClosed, (Grows.refl hClosed.sound).advance (forall_mem_nil _)⟩
    (hTargets ▸ .nil)
  have hSig : F.sig = sig := hGrows.sig.trans hE.sig_eq
  have hText : (F.text []).sig = sig := hSig
  refine ⟨hClosed, hSig, hGrows.config.trans hE.config_eq, b₁.entry 0, b₁.slots, F.site b₂ [], ?_⟩
  exact {
    entered := ⟨0, hText ▸ hE.shape F 0 hClosed hGrows.enters⟩
    entry_le := hGrows.setup.length_le
    reserved := hClosed.reserved hGrows
    fixed_lt := hClosed.sound.regs.lt_high
    high_le := hGrows.regs.high
    outs := by
      rw [hText]
      exact hGrows.outs.trans hE.outs
    outs_fixed := by
      rw [hText]
      exact fun i hi => hGrows.regs.keeps _ (hE.keeps i hi)
    flow := hE.site_eq (F := F) ▸ hFlow
    ending := by
      rw [← hClosed.end_eq]
      exact hEnding }

end Build

end Comptime
