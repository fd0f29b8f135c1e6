import Comptime.Proofs.Simulation.Expressions

/-!
# The structure of bodies

What is asked of a body for its execution to be as `Stmt.exec` says (`Stmt.regular`): what it defers does not leave,
declares nothing and is not deferring itself. A variable is used where its slot is settled (`Stmt.ordered`).

Lowering such a body leaves the scopes around a statement as they were and gives slots to the declared variables only
(`Task.Settles`). What is deferred in a scope is lowered again at each way out of it, after declarations that it does not
see, so the slots that it was lowered with are those of the variables that were declared before it (`Site.Owes`). A variable
that it declared itself would have other memory at each of these places, but a setting has one address for it
(`Setting.home`).
-/

namespace Comptime

open List Stmt Comptime.Expr Comptime.Task

/-- The ways by which control may leave a statement before its end. -/
structure Ways where
  brk : Bool
  cont : Bool
  fall : Bool
  ret : Bool

namespace Ways

def none : Ways := ⟨false, false, false, false⟩

def all : Ways := ⟨true, true, true, true⟩

/-- The ways out of the body of a loop, given those out of the loop. -/
def inLoop (w : Ways) : Ways := { w with brk := true, cont := true }

/-- The ways out of the cases of a switch, given those out of the switch. -/
def inSwitch (w : Ways) : Ways := { w with brk := true, fall := true }

variable {w : Ways} {ts : List Target} {t : Target} {k k' : Nat}

/-- The scopes that are left by one of the ways are among the innermost ones, from depth `k` on. -/
structure Permits (w : Ways) (ts : List Target) (k : Nat) : Prop where
  first : w.brk = true ∨ w.fall = true → ∀ t, ts.head? = some t → t.depth ≤ k
  loop : w.cont = true → ∀ t, ts.find? (·.isLoop) = some t → t.depth ≤ k

namespace Permits

theorem none : Permits .none ts k := ⟨nofun, nofun⟩

theorem mono (h : w.Permits ts k) (hk : k ≤ k') : w.Permits ts k' :=
  ⟨fun hw t ht => (h.first hw t ht).trans hk, fun hw t ht => (h.loop hw t ht).trans hk⟩

theorem inLoop (ht : t.isLoop = true) (hDepth : t.depth ≤ k) : w.inLoop.Permits (t :: ts) k where
  first _ t' h := Option.some.inj h ▸ hDepth
  loop _ t' h := by
    rw [find?_cons_of_pos ht] at h
    exact Option.some.inj h ▸ hDepth

theorem inSwitch (h : w.Permits ts k) (ht : t.isLoop = false) (hDepth : t.depth ≤ k) : w.inSwitch.Permits (t :: ts) k where
  first _ t' h := Option.some.inj h ▸ hDepth
  loop hw t' h' := by
    rw [find?_cons_of_neg (by simp [ht])] at h'
    exact h.loop hw t' h'

end Permits

end Ways

namespace Stmt

mutual

/-- Control leaves the statement at its end, or by one of the ways. -/
def stays (w : Ways) : Stmt → Bool
  | .absent | .expr _ | .decl _ _ | .assign _ _ _ | .defer _ => true
  | .block l => listStays w l
  | .cond _ yes no => listStays w yes && stays w no
  | .loop _ _ _ body | .whileDo _ body | .doWhile _ body => listStays w.inLoop body
  | .switch _ cs => casesStay w.inSwitch cs
  | .breakOut => w.brk
  | .continueLoop => w.cont
  | .fallthrough => w.fall
  | .ret _ => w.ret

def listStays (w : Ways) : List Stmt → Bool
  | [] => true
  | x :: xs => stays w x && listStays w xs

def casesStay (w : Ways) : List (Case Stmt) → Bool
  | [] => true
  | c :: cs => listStays w c.body && casesStay w cs

end

mutual

theorem stays_all : (x : Stmt) → x.stays .all = true
  | .absent | .expr _ | .decl _ _ | .assign _ _ _ | .defer _ | .breakOut | .continueLoop | .fallthrough | .ret _ => rfl
  | .block l => listStays_all l
  | .cond _ yes no => Bool.and_eq_true_iff.mpr ⟨listStays_all yes, stays_all no⟩
  | .loop _ _ _ body | .whileDo _ body | .doWhile _ body => listStays_all body
  | .switch _ cs => casesStay_all cs

/-- All statements leave by one of all ways. -/
theorem listStays_all : (xs : List Stmt) → listStays .all xs = true
  | [] => rfl
  | x :: xs => Bool.and_eq_true_iff.mpr ⟨stays_all x, listStays_all xs⟩

theorem casesStay_all : (cs : List (Case Stmt)) → casesStay .all cs = true
  | [] => rfl
  | c :: cs => Bool.and_eq_true_iff.mpr ⟨listStays_all c.body, casesStay_all cs⟩

end

mutual

/-- The variables that a statement declares. -/
def decls : Stmt → List Nat
  | .decl v _ => [v.id]
  | .block l => listDecls l
  | .cond _ yes no => listDecls yes ++ decls no
  | .loop init _ post body => decls init ++ (listDecls body ++ decls post)
  | .whileDo _ body | .doWhile _ body => listDecls body
  | .switch _ cs => caseDecls cs
  | .defer d => decls d
  | _ => []

def listDecls : List Stmt → List Nat
  | [] => []
  | x :: xs => decls x ++ listDecls xs

def caseDecls : List (Case Stmt) → List Nat
  | [] => []
  | c :: cs => listDecls c.body ++ caseDecls cs

end

mutual

/-- The statement is as lowering keeps it: see the head of this file. -/
def regular : Stmt → Bool
  | .absent | .expr _ | .decl _ _ | .assign _ _ _ | .breakOut | .continueLoop | .fallthrough | .ret _ => true
  | .block l => listRegular l
  | .cond _ yes no => listRegular yes && !no.isDefer && regular no
  | .loop init _ post body => !init.isDefer && init.stays .none && regular init &&
    (!post.isDefer && post.stays .none && regular post) && listRegular body
  | .whileDo _ body | .doWhile _ body => listRegular body
  | .switch _ cs => casesRegular cs
  | .defer d => !d.isDefer && d.stays .none && d.decls.isEmpty && regular d

def listRegular : List Stmt → Bool
  | [] => true
  | x :: xs => regular x && listRegular xs

def casesRegular : List (Case Stmt) → Bool
  | [] => true
  | c :: cs => listRegular c.body && casesRegular cs

end

end Stmt

/-- None of the variables is among these. -/
def Expr.avoids (later : List Nat) (x : Expr) : Bool := x.vars.all (!later.contains ·)

namespace Stmt

mutual

/-- No variable is used, or declared again, before its declaration, where `later` is what is declared after the
statement. -/
def ordered (later : List Nat) : Stmt → Bool
  | .absent | .breakOut | .continueLoop | .fallthrough => true
  | .block l => listOrdered later l
  | .expr x => x.avoids later
  | .decl v init => !later.contains v.id && init.avoids later
  | .assign _ lhs rhs => lhs.all (·.avoids later) && rhs.all (·.avoids later)
  | .cond test yes no => test.avoids (listDecls yes ++ (no.decls ++ later)) && listOrdered (no.decls ++ later) yes &&
      ordered later no
  | .loop init test post body => ordered (listDecls body ++ (post.decls ++ later)) init &&
    test.avoids (listDecls body ++ (post.decls ++ later)) && listOrdered (post.decls ++ later) body && ordered later post
  | .whileDo test body => test.avoids (listDecls body ++ later) && listOrdered later body
  | .doWhile test body => listOrdered later body && test.avoids later
  | .switch tag cs => tag.avoids (caseDecls cs ++ later) && casesOrdered later cs
  | .ret xs => xs.all (·.avoids later)
  | .defer d => ordered later d

def listOrdered (later : List Nat) : List Stmt → Bool
  | [] => true
  | x :: xs => ordered (listDecls xs ++ later) x && listOrdered later xs

def casesOrdered (later : List Nat) : List (Case Stmt) → Bool
  | [] => true
  | c :: cs => listOrdered (caseDecls cs ++ later) c.body && casesOrdered later cs

end

end Stmt

/-! ## Fewer later declarations -/

theorem appended {l later later' : List Nat} (h : later' ⊆ later) : l ++ later' ⊆ l ++ later :=
  append_subset.mpr ⟨subset_append_left l later, fun _ hi => mem_append_right l (h hi)⟩

theorem Expr.avoids_iff {later : List Nat} {x : Expr} : x.avoids later = true ↔ ∀ i ∈ x.vars, i ∉ later := by
  simp [avoids]

theorem Expr.avoids_mono {later later' : List Nat} {x : Expr} (h : later' ⊆ later) (hx : x.avoids later = true) :
    x.avoids later' = true :=
  avoids_iff.mpr fun i hi hLater => avoids_iff.mp hx i hi (h hLater)

namespace Stmt

mutual

theorem ordered_mono {later later' : List Nat} (h : later' ⊆ later) :
    (x : Stmt) → x.ordered later = true → x.ordered later' = true
  | .absent, _ | .breakOut, _ | .continueLoop, _ | .fallthrough, _ => rfl
  | .block l, hx => listOrdered_mono h l hx
  | .expr _, hx => avoids_mono h hx
  | .decl v init, hx => by
    simp only [ordered, Bool.and_eq_true, Bool.not_eq_true', contains_eq_mem, decide_eq_false_iff_not] at hx ⊢
    exact ⟨fun hMem => hx.1 (h hMem), avoids_mono h hx.2⟩
  | .assign _ lhs rhs, hx => by
    simp only [ordered, Bool.and_eq_true, all_eq_true] at hx ⊢
    exact ⟨fun x hMem => avoids_mono h (hx.1 x hMem), fun x hMem => avoids_mono h (hx.2 x hMem)⟩
  | .cond test yes no, hx => by
    simp only [ordered, Bool.and_eq_true] at hx ⊢
    have hNo : no.decls ++ later' ⊆ no.decls ++ later := appended h
    exact ⟨⟨avoids_mono (appended hNo) hx.1.1, listOrdered_mono hNo yes hx.1.2⟩, ordered_mono h no hx.2⟩
  | .loop init test post body, hx => by
    simp only [ordered, Bool.and_eq_true] at hx ⊢
    have hPost : post.decls ++ later' ⊆ post.decls ++ later := appended h
    have hBody : listDecls body ++ (post.decls ++ later') ⊆ listDecls body ++ (post.decls ++ later) :=
      appended hPost
    exact ⟨⟨⟨ordered_mono hBody init hx.1.1.1, avoids_mono hBody hx.1.1.2⟩, listOrdered_mono hPost body hx.1.2⟩,
      ordered_mono h post hx.2⟩
  | .whileDo test body, hx => by
    simp only [ordered, Bool.and_eq_true] at hx ⊢
    exact ⟨avoids_mono (appended h) hx.1, listOrdered_mono h body hx.2⟩
  | .doWhile test body, hx => by
    simp only [ordered, Bool.and_eq_true] at hx ⊢
    exact ⟨listOrdered_mono h body hx.1, avoids_mono h hx.2⟩
  | .switch tag cs, hx => by
    simp only [ordered, Bool.and_eq_true] at hx ⊢
    exact ⟨avoids_mono (appended h) hx.1, casesOrdered_mono h cs hx.2⟩
  | .ret xs, hx => by
    simp only [ordered, all_eq_true] at hx ⊢
    exact fun x hMem => avoids_mono h (hx x hMem)
  | .defer d, hx => ordered_mono h d hx

theorem listOrdered_mono {later later' : List Nat} (h : later' ⊆ later) : (xs : List Stmt) → listOrdered later xs = true →
    listOrdered later' xs = true
  | [], _ => rfl
  | x :: xs, hx => by
    simp only [listOrdered, Bool.and_eq_true] at hx ⊢
    exact ⟨ordered_mono (appended h) x hx.1, listOrdered_mono h xs hx.2⟩

theorem casesOrdered_mono {later later' : List Nat} (h : later' ⊆ later) : (cs : List (Case Stmt)) →
    casesOrdered later cs = true → casesOrdered later' cs = true
  | [], _ => rfl
  | c :: cs, hx => by
    simp only [casesOrdered, Bool.and_eq_true] at hx ⊢
    exact ⟨listOrdered_mono (appended h) c.body hx.1, casesOrdered_mono h cs hx.2⟩

end

end Stmt

/-! ## Scopes and slots -/

namespace Task

def regular : Task → Prop
  | stmt x => x.regular = true
  | stmts xs | scope xs => listRegular xs = true
  | close | leave _ => True
  | deferred ds _ => ∀ d ∈ ds, (defer d).regular = true
  | cases cs _ _ => casesRegular cs = true

/-- No variable is used before its declaration, where `later` is what is declared after the task. -/
def ordered (later : List Nat) : Task → Prop
  | stmt x => x.ordered later = true
  | stmts xs | scope xs => listOrdered later xs = true
  | close | leave _ => True
  | deferred ds _ => ∀ d ∈ ds, d.ordered later = true
  | cases cs _ _ => casesOrdered later cs = true

def decls : Task → List Nat
  | stmt x => x.decls
  | stmts xs | scope xs => listDecls xs
  | close | leave _ | deferred _ _ => []
  | cases cs _ _ => caseDecls cs

end Task

namespace Site

variable {names names' later later' : List Nat} {s s1 s' : Site}

/-- What is deferred is as lowering keeps it and uses no variable that is declared later. -/
def Owes (later : List Nat) (s : Site) : Prop :=
  ∀ ds ∈ s.scopes, ∀ d ∈ ds, (defer d).regular = true ∧ d.ordered later = true

theorem Owes.move (h : s.Owes later) (hScopes : s'.scopes = s.scopes) (hSub : later' ⊆ later) : s'.Owes later' :=
  fun ds hds d hd =>
    have hd' := h ds (hScopes ▸ hds) d hd
    ⟨hd'.1, ordered_mono hSub d hd'.2⟩

theorem Owes.push (h : s.Owes later) : Owes later { s with linked := false, scopes := [] :: s.scopes } :=
  forall_mem_cons.mpr ⟨nofun, h⟩

theorem Owes.cons {ds : List Stmt} {outer : List (List Stmt)} (h : s.Owes later) (hScopes : s.scopes = ds :: outer) :
    (∀ d ∈ ds, (defer d).regular = true ∧ d.ordered later = true) ∧
      ∀ ds ∈ outer, ∀ d ∈ ds, (defer d).regular = true ∧ d.ordered later = true := by
  rw [Owes, hScopes] at h
  exact forall_mem_cons.mp h

/-- The scopes are the same, and so are the slots but for those of these variables. -/
structure Steady (names : List Nat) (s s' : Site) : Prop where
  scopes : s'.scopes = s.scopes
  slots : ∀ i ∉ names, s'.slots.lookup i = s.slots.lookup i

/-- The same, but more may have been deferred in the innermost scope. -/
structure Grows (names later : List Nat) (s s' : Site) : Prop where
  tail : s'.scopes.tail = s.scopes.tail
  owes : s'.Owes later
  slots : ∀ i ∉ names, s'.slots.lookup i = s.slots.lookup i

namespace Steady

theorem refl : Steady names s s := ⟨rfl, fun _ _ => rfl⟩

theorem of_eq (hScopes : s'.scopes = s.scopes) (hSlots : s'.slots = s.slots) : Steady names s s' :=
  ⟨hScopes, fun _ _ => by rw [hSlots]⟩

theorem trans (h : Steady names s s1) (h' : Steady names' s1 s') : Steady (names ++ names') s s' where
  scopes := h'.scopes.trans h.scopes
  slots i hi := (h'.slots i fun hi' => hi (mem_append_right _ hi')).trans (h.slots i fun hi' => hi (mem_append_left _ hi'))

/-- The first way adds nothing. -/
theorem after (h : Steady [] s s1) (h' : Steady names s1 s') : Steady names s s' := h.trans h'

/-- The second way adds nothing. -/
theorem andThen (h : Steady names s s1) (h' : Steady [] s1 s') : Steady names s s' := by simpa using h.trans h'

theorem mono (h : Steady names s s') (hSub : names ⊆ names') : Steady names' s s' :=
  ⟨h.scopes, fun i hi => h.slots i fun hi' => hi (hSub hi')⟩

theorem owes (h : Steady names s s') (hOwes : s.Owes (names ++ later)) : s'.Owes later :=
  hOwes.move h.scopes (subset_append_right _ _)

theorem grows (h : Steady names s s') (hOwes : s.Owes (names ++ later)) : Grows names later s s' :=
  ⟨by rw [h.scopes], h.owes hOwes, h.slots⟩

end Steady

end Site

namespace Text

variable {T : Text} {floor : Nat} {α : Type} {x : Shape α} {s s' : Site} {a : α} {pos : Nat}

theorem Runs.steady (h : T.Runs floor x s a s') : s.Steady [] s' := by
  obtain ⟨-, n, p, -, -, rfl⟩ := h
  exact .of_eq rfl rfl

theorem Region.steady (h : T.Region s pos s') : s.Steady [] s' := by
  obtain ⟨-, -, rfl⟩ := h
  exact .of_eq rfl rfl

theorem Jump.steady (h : T.Jump s pos s') : s.Steady [] s' := by
  obtain ⟨-, rfl⟩ := h
  exact .of_eq rfl rfl

theorem Skip.steady (h : T.Skip s pos s') : s.Steady [] s' := by
  rcases h with ⟨-, rfl⟩ | ⟨-, hJump⟩
  · exact .refl
  · exact hJump.steady

end Text

/-- A statement that is missing declares nothing. -/
theorem Stmt.decls_of_isAbsent {x : Stmt} (h : x.isAbsent = true) : x.decls = [] := by
  cases x with
  | absent => rfl
  | _ => cases h

/-- What becomes of scopes and slots. -/
def Task.Settles (later : List Nat) (s s' : Site) : Task → Prop
  | stmt x => if x.isDefer then s.Grows x.decls later s' else s.Steady x.decls s'
  | stmts xs => s.Grows (listDecls xs) later s'
  | scope xs => s.Steady (listDecls xs) s'
  | leave _ => s.Steady [] s'
  | cases cs _ _ => s.Steady (caseDecls cs) s'
  | close => s'.scopes = s.scopes.tail ∧ ∀ i, s'.slots.lookup i = s.slots.lookup i
  | deferred _ kept => s.scopes = kept → s.Steady [] s'

theorem Task.Settles.grows {s s' : Site} {x : Stmt} {later : List Nat} (h : (stmt x).Settles later s s')
    (hOwes : s.Owes (x.decls ++ later)) : s.Grows x.decls later s' := by
  rw [Settles] at h
  split at h
  · exact h
  · exact h.grows hOwes

theorem Task.Settles.steady {s s' : Site} {x : Stmt} {later : List Nat} (h : (stmt x).Settles later s s')
    (hx : x.isDefer = false) : s.Steady x.decls s' := by
  rw [Settles, hx] at h
  exact h

end Comptime
