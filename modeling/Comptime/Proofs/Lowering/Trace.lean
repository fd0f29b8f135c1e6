import Comptime.Proofs.Lowering.Finished

/-!
# Lowering leaves its shape

`Traces` says of a piece of lowering that the code it emits has a given shape once everything is finished, whatever is
lowered afterwards. What it gives may refer to instructions that are still to be patched or inserted before; its `Kind`
says which spots those are. Pieces are put together by `Traces.bind`, so that the lemma about a lowering has the form of
the lowering.
-/

namespace Comptime

open Builder Build Shape Registers

variable {V : Set Spot} {b' F : Builder}

/-- What lowering gives: the spots that are not settled yet, what is known of them, and what it is in finished code. -/
structure Kind (α : Type) where
  loose : α → Set Spot
  static : α → Builder → Prop
  locate : Builder → α → α

/-- Nothing is left open. -/
def Kind.plain (α : Type) : Kind α := ⟨fun _ => ∅, fun _ _ => True, fun _ a => a⟩

/-- Other spots stay open as well, and something is known of them. -/
def Kind.also {α : Type} (κ : Kind α) (U : Set Spot) (P : Builder → Prop) : Kind α :=
  { κ with loose := fun a => κ.loose a ∪ U, static := fun a b => κ.static a b ∧ P b }

/-- Nothing else is left open but these spots, of which something is known. -/
def Kind.keeping (α : Type) (U : Set Spot) (P : Builder → Prop) : Kind α := ⟨fun _ => U, fun _ => P, fun _ a => a⟩

/-- The code that `x` emits into a sound `b` has the shape `X` in the end. The spots in `U` were open before. -/
def Traces {α : Type} (κ : Kind α) (U : Set Spot) (b : Builder) (x : Build α) (X : Builder → Shape α) : Prop :=
  b.Sound → ∀ a b', x b = .ok a b' →
    Lowered U b b' ∧ (b.dead = false → b'.dead = false) ∧ κ.static a b' ∧
    (∀ u ∈ κ.loose a, b.handles ≤ u.handle ∨ u ∈ U) ∧
    ∀ F V, Closed F → Grows V b' F →
      (∀ u : Spot, u.handle < b'.handles → b.handles ≤ u.handle ∨ u ∈ U → u ∉ b.cursor → u ∈ V → u ∈ κ.loose a) →
      X F (F.text b.slots) (F.atEnd b) (κ.locate F a) (F.atEnd b')

/-- A builder is found again in finished code through a later one. -/
theorem Builder.Lowered.toFinal {U : Set Spot} {b : Builder} (hLow : Lowered U b b') (hGrows : Grows V b' F) :
    Grows (U ∪ b.cursor ∪ V) b F :=
  (hLow.grows.mono Set.subset_union_left).trans hGrows fun _ _ h => .inr h

namespace Traces

variable {α β : Type} {κ : Kind α} {κ' : Kind β} {U : Set Spot} {b : Builder} {x : Build α} {k : α → Build β}
  {X : Builder → Shape α} {Y : Builder → α → Shape β}

theorem bind (hx : Traces κ U b x X)
    (hk : ∀ a b1, x b = .ok a b1 → Lowered U b b1 → κ.static a b1 →
      Traces κ' (κ.loose a) b1 (k a) fun F => Y F (κ.locate F a)) :
    Traces κ' U b (x >>= k) fun F => X F >>= Y F := by
  intro hb c b' hRun
  obtain ⟨a, b1, hRun1, hRun2⟩ := bind_eq_ok.mp hRun
  obtain ⟨hLow1, hDead1, hStatic1, hLoose1, hShape1⟩ := hx hb a b1 hRun1
  obtain ⟨hLow2, hDead2, hStatic2, hLoose2, hShape2⟩ := hk a b1 hRun1 hLow1 hStatic1 hLow1.sound c b' hRun2
  have hOwned : ∀ u : Spot, b1.handles ≤ u.handle ∨ u ∈ κ.loose a → b.handles ≤ u.handle ∨ u ∈ U := fun u hu =>
    hu.elim (fun hLe => .inl (hLow1.grows.handles.trans hLe)) (hLoose1 u)
  refine ⟨hLow1.trans hLow2 fun u hu hIn => (hLoose1 u hIn).resolve_left (by omega), hDead2 ∘ hDead1, hStatic2,
    fun u hu => hOwned u (hLoose2 u hu), fun F V hF hGrows hSettled => ⟨κ.locate F a, F.atEnd b1, ?_, ?_⟩⟩
  · -- what the rest may still change, for the first part
    refine hShape1 F _ hF (hLow2.toFinal hGrows) fun u hLt hOwn hCursor hIn => ?_
    rcases hIn with (hIn | hIn) | hIn
    · exact hIn
    · exact absurd (hLow1.cursor ▸ hIn) hCursor
    · exact (hLoose2 u (hSettled u (hLt.trans_le hLow2.grows.handles) hOwn hCursor hIn)).resolve_left (by omega)
  · rw [← hLow1.slots]
    exact hShape2 F V hF hGrows fun u hLt hOwn hCursor hIn =>
      hSettled u hLt (hOwned u hOwn) (hLow1.cursor ▸ hCursor) hIn

/-- What comes after does not depend on what is known by then. -/
theorem seq (hx : Traces κ U b x X) (hk : ∀ a b1, Traces κ' (κ.loose a) b1 (k a) fun F => Y F (κ.locate F a)) :
    Traces κ' U b (x >>= k) fun F => X F >>= Y F :=
  hx.bind fun a b1 _ _ _ => hk a b1

theorem of_sound (h : b.Sound → Traces κ U b x X) : Traces κ U b x X := fun hb => h hb hb

/-- What lowering takes for granted. -/
theorem demand {o : Option α} (hk : ∀ a, o = some a → Traces κ' U b (k a) fun F => Y F a) :
    Traces κ' U b (orFault o >>= k) fun F => demand o >>= Y F := by
  intro hb c b' hRun
  obtain ⟨a, b1, hRun1, hRun2⟩ := bind_eq_ok.mp hRun
  obtain ⟨rfl, ha⟩ := orFault_eq_ok hRun1
  obtain ⟨hLow, hDead, hStatic, hLoose, hShape⟩ := hk a ha hb c b' hRun2
  exact ⟨hLow, hDead, hStatic, hLoose, fun F V hF hGrows hSettled => ⟨a, _, ⟨ha, rfl⟩, hShape F V hF hGrows hSettled⟩⟩

/-- What is found out on the way. -/
theorem check {c : Prop} (hc : c) (h : Traces κ U b x X) : Traces κ U b x fun F => check c >>= fun _ => X F := by
  intro hb a b' hRun
  obtain ⟨hLow, hDead, hStatic, hLoose, hShape⟩ := h hb a b' hRun
  exact ⟨hLow, hDead, hStatic, hLoose, fun F V hF hGrows hSettled => ⟨(), _, ⟨hc, rfl⟩, hShape F V hF hGrows hSettled⟩⟩

theorem pure {a : α} (hStatic : κ.static a b) (hLoose : ∀ u ∈ κ.loose a, u ∈ U) :
    Traces κ U b (Pure.pure a) fun F => Pure.pure (κ.locate F a) := by
  intro hb a' b' hRun
  cases hRun
  exact ⟨.refl hb, id, hStatic, fun u hu => .inr (hLoose u hu), fun F V _ _ _ => ⟨rfl, rfl⟩⟩

/-- Lowering that fails leaves no code. -/
theorem throw {e : Stop} : Traces κ U b (throw e) X := fun _ _ _ hRun => by cases hRun

theorem throw_bind {e : Stop} {Y : Builder → Shape β} : Traces κ' U b ((MonadExcept.throw e : Build α) >>= k) Y :=
  fun _ _ _ hRun => by cases hRun

theorem mono (h : Traces κ U b x X) (hU : U ⊆ V) : Traces κ V b x X := by
  intro hb a b' hRun
  obtain ⟨hLow, hDead, hStatic, hLoose, hShape⟩ := h hb a b' hRun
  exact ⟨hLow.mono hU, hDead, hStatic, fun u hu => (hLoose u hu).imp_right (hU ·), fun F V hF hGrows hSettled =>
    hShape F V hF hGrows fun u hLt hOwn => hSettled u hLt (hOwn.imp_right (hU ·))⟩

/-- Spots that a piece has nothing to do with stay open, and what is known of them lasts. -/
theorem beside {W : Set Spot} {P : Builder → Prop} (h : Traces κ U b x X) (hW : ∀ u ∈ W, u.handle < b.handles ∧ u ∉ U)
    (hP : ∀ b', Lowered U b b' → P b') : Traces (κ.also W P) (U ∪ W) b x X := by
  intro hb a b' hRun
  obtain ⟨hLow, hDead, hStatic, hLoose, hShape⟩ := h hb a b' hRun
  refine ⟨hLow.mono Set.subset_union_left, hDead, ⟨hStatic, hP b' hLow⟩, fun u hu => ?_, fun F V hF hGrows hSettled => ?_⟩
  · rcases hu with hu | hu
    · exact (hLoose u hu).imp_right .inl
    · exact .inr (.inr hu)
  · refine hShape F V hF hGrows fun u hLt hOwn hCursor hIn => ?_
    refine (hSettled u hLt (hOwn.imp_right .inl) hCursor hIn).resolve_right fun hIn => ?_
    exact hOwn.elim (fun hNew => absurd (hW u hIn).1 (by omega)) (hW u hIn).2

/-- The same of a piece that leaves nothing open itself. -/
theorem keeping {W : Set Spot} {P : Builder → Prop} (h : Traces (.plain α) U b x X)
    (hW : ∀ u ∈ W, u.handle < b.handles ∧ u ∉ U) (hP : ∀ b', Lowered U b b' → P b') :
    Traces (.keeping α W P) (U ∪ W) b x X := by
  intro hb a b' hRun
  obtain ⟨hLow, hDead, hStatic, hLoose, hShape⟩ := h.beside hW hP hb a b' hRun
  exact ⟨hLow, hDead, hStatic.2, fun u hu => hLoose u (.inr hu), fun F V hF hGrows hSettled =>
    hShape F V hF hGrows fun u hLt hOwn hCursor hIn => .inr (hSettled u hLt hOwn hCursor hIn)⟩

/-- The same with other words. -/
theorem of_eq {y : Build α} {Y : Builder → Shape α} (h : Traces κ U b x X) (hx : y b = x b)
    (hY : ∀ F p a p', F.config = b.config → F.sig = b.sig → F.outs = b.outs → X F (F.text b.slots) p a p' →
      Y F (F.text b.slots) p a p') : Traces κ U b y Y := by
  intro hb a b' hRun
  obtain ⟨hLow, hDead, hStatic, hLoose, hShape⟩ := h hb a b' (hx ▸ hRun)
  refine ⟨hLow, hDead, hStatic, hLoose, fun F V hF hGrows hSettled => ?_⟩
  have hFinal := hLow.toFinal hGrows
  exact hY F _ _ _ hFinal.config hFinal.sig hFinal.outs (hShape F V hF hGrows hSettled)

/-- A step that leaves the code and the registers alone. -/
theorem aside {x : Build Unit} {k : Unit → Build β} {Y : Builder → Shape β}
    (hx : Traces (.plain Unit) ∅ b x fun _ => Pure.pure ()) (hk : ∀ b1, Traces κ' ∅ b1 (k ()) Y) :
    Traces κ' ∅ b (x >>= k) Y :=
  of_eq (hx.seq (Y := fun F _ => Y F) fun _ => hk) rfl
    fun _ _ _ _ _ _ _ ⟨_, _, ⟨_, hp⟩, hShape⟩ => hp ▸ hShape

end Traces

/-! ## Instructions -/

/-- Control goes on after it, as before it. -/
def Instr.isPlain : Instr → Bool
  | branch .. | ret .. | region => false
  | _ => true

theorem Instr.relocate_of_isPlain {x : Instr} {f : Handle → Handle} (hx : x.isPlain = true) : x.relocate f = x := by
  cases x <;> first | rfl | cases hx

theorem Build.deadAfter_of_isPlain {x : Instr} {dead : Bool} (hx : x.isPlain = true) : deadAfter dead x = dead := by
  cases x <;> first | rfl | cases hx

namespace Builder

variable {b : Builder} {x : Instr}

theorem Sound.cursor_lt (hb : b.Sound) {u : Spot} (hu : u ∈ b.cursor) : u.handle < b.handles := by
  obtain ⟨h, hHead, rfl⟩ := hu
  refine hb.lt_of_mem_body ?_
  rw [← front_append_rest]
  exact List.mem_append_right _ (hb.arranged.opens.subset (List.mem_of_head? hHead))

/-- A spot of a new instruction is settled if nothing is left open. -/
theorem Sound.settled {U L : Set Spot} (hb : b.Sound)
    (hSettled : ∀ u : Spot, u.handle < b'.handles → b.handles ≤ u.handle ∨ u ∈ U → u ∉ b.cursor → u ∈ V → u ∈ L) {u : Spot}
    (hNew : b.handles ≤ u.handle) (hLt : u.handle < b'.handles) (hL : u ∉ L) : u ∉ V := fun hIn =>
  hL (hSettled u hLt (.inl hNew) (fun hCursor => absurd (hb.cursor_lt hCursor) (by omega)) hIn)

/-- An emitted instruction stands where the code ended so far, and the next one follows it. A jump may have been given
another target since. -/
theorem emitted_shape {y : Instr} {l : List (Nat × Reg)} (hb : b.Sound) (hF : F.Closed) (hGrows : Grows V (b.emitted x) F)
    (hV : .before b.handles ∉ V) (hCode : F.code b.handles = y) : F.place b.handles = (F.atEnd b).pos ∧
      instr (y.relocate F.position) (F.text l) (F.atEnd b) () (F.atEnd (b.emitted x)) := by
  have hFront : (b.emitted x).front = b.front ++ b.handles :: [] := hb.front_emitted
  have hPlace := hF.place_first hGrows hFront hV
  refine ⟨hPlace, ?_, ?_⟩
  · have hAt := hF.code_at (l := l) (Builder.Closed.mem_body hGrows (h := b.handles) (by rw [hFront]; simp))
    rwa [resolved, hCode, hPlace] at hAt
  · rw [Closed.atEnd_of_last hb.last_emitted, hPlace]
    rfl

/-- The same of an instruction that is as it was emitted. -/
theorem settled_shape {F : Builder} {V : Set Spot} {l : List (Nat × Reg)} (hb : b.Sound) (hF : F.Closed)
    (hGrows : Grows V (b.emitted x) F) (hSettled : ∀ u : Spot, u.handle < (b.emitted x).handles → b.handles ≤ u.handle ∨
      u ∈ (∅ : Set Spot) → u ∉ b.cursor → u ∈ V → u ∈ (∅ : Set Spot)) :
    F.place b.handles = (F.atEnd b).pos ∧
      instr (x.relocate F.position) (F.text l) (F.atEnd b) () (F.atEnd (b.emitted x)) := by
  have hLt : b.handles < (b.emitted x).handles := by rw [handles_emitted]; omega
  refine emitted_shape hb hF hGrows (hb.settled (u := .before b.handles) hSettled (le_refl _) hLt id) ?_
  rw [hGrows.code _ hLt (hb.settled (u := .code b.handles) hSettled (le_refl _) hLt id), code_emitted, if_pos rfl]

theorem emit_traces (hx : x.isPlain = true) :
    Traces (.plain Unit) ∅ b (discard (emit x)) fun _ => instr x := by
  intro hb _ b' hRun
  rw [discard_emit] at hRun
  cases hRun
  refine ⟨lowered_emitted hb, fun hDead => (deadAfter_of_isPlain hx).trans hDead, trivial, nofun,
    fun F V hF hGrows hSettled => ?_⟩
  have hInstr := (settled_shape (l := b.slots) hb hF hGrows hSettled).2
  rwa [Instr.relocate_of_isPlain hx] at hInstr

theorem allocReg_traces : Traces (.plain Reg) ∅ b allocReg fun _ => allocReg := by
  intro hb r b' hRun
  cases hRun
  have hLow : Lowered ∅ b { b with regs := b.regs.alloc.1 } :=
    Alike.lowered ⟨rfl, rfl, rfl, rfl⟩ hb hb.regs.alloc grows_alloc
      ((alloc_free b.regs).1.trans (Nat.le_succ _)) rfl ⟨rfl, rfl, rfl⟩
  refine ⟨hLow, id, trivial, nofun, fun F V hF hGrows _ => ⟨b.regs.alloc.2, rfl, (alloc_free b.regs).1,
    fun hKeeps => ?_, (alloc_lt_high b.regs).trans_le hGrows.regs.high, rfl⟩⟩
  exact (alloc_free b.regs).2 (hGrows.regs.fresh _ (alloc_lt_high b.regs) hKeeps)

theorem last_congr (hBody : b'.body = b.body) (hAnchors : b'.stream.anchors = b.stream.anchors) : b'.last = b.last := by
  rw [last, last, front, front, hAnchors, hBody]

theorem reserve_traces {e : Extent} :
    Traces (.plain Reg) ∅ b (reserve e) fun _ => reserve e := by
  intro hb r b' hRun
  obtain ⟨hLow, hBody, hSetup, hCode, rfl, hRegs, hDead⟩ := reserve_lowered hb hRun
  refine ⟨hLow, fun h => hDead.trans h, trivial, nofun, fun F V hF hGrows _ => ⟨rfl, ?_, ?_, ?_, ?_⟩⟩
  · exact hGrows.regs.keeps _ (hRegs ▸ keeps_allocPermanent.mpr (.inl rfl))
  · have hHigh := hGrows.regs.high
    rw [hRegs] at hHigh
    exact hHigh
  · obtain ⟨zs, hZs⟩ := hGrows.setup
    rw [hSetup] at hZs
    refine ⟨b.setup.length, ?_, ?_⟩
    · change b.setup.length < F.setup.length
      rw [← hZs]
      simp
    · have hAt : F.setup = b.setup ++ b.handles :: zs := by rw [← hZs]; simp
      have hSame : F.code b.handles = b.reservation e := by
        rw [hGrows.setupCode b.handles (by rw [hSetup]; simp), hCode]
      rw [hF.setup_at hAt, resolved, hSame]
      rfl
  · rw [Builder.atEnd, Builder.atEnd, last_congr hBody hLow.anchors, hRegs]
    rfl

end Builder

end Comptime
