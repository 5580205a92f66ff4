import Mathlib.Data.List.Nodup

/-!
# Moves in a partial map

A move takes what is at one name to another one.  Names are compared by a key.  A list of moves is made
one after another (`moveAll`).  Where every move of a list could be made first, all of them can be made
in turn if and only if no key occurs twice (`moveAll_isSome_iff`).
-/

namespace PartialMap

variable {α β κ : Type}

/-- A move can be made: there is something to move, and a free place that is allowed. -/
def canMove (ok : α → Bool) (T : α → Option β) (p : α × α) : Bool :=
  (T p.1).isSome && ok p.2 && (T p.2).isNone

/-- The keys of a list of moves. -/
def keysOf (key : α → κ) (ps : List (α × α)) : List κ := ps.flatMap fun p => [key p.1, key p.2]

/-- Names with the same key are the same name. -/
def Respects (key : α → κ) (T : α → Option β) : Prop := ∀ a b, key a = key b → T a = T b

/-- The keys of some moves are not those of another one. -/
def Apart (key : α → κ) (p : α × α) (ps : List (α × α)) : Prop :=
  ∀ q ∈ ps, key q.1 ≠ key p.1 ∧ key q.1 ≠ key p.2 ∧ key q.2 ≠ key p.1 ∧ key q.2 ≠ key p.2

variable {key : α → κ} {ok : α → Bool} {f : α → β → β} {g : β → β} {T : α → Option β} {s d a : α}
  {p q : α × α} {ps : List (α × α)}

theorem canMove_iff : canMove ok T p = true ↔ (T p.1).isSome ∧ ok p.2 ∧ T p.2 = none := by
  simp [canMove, and_assoc]

theorem key_ne_of_canMove (hT : Respects key T) (hp : canMove ok T p = true)
    (hq : canMove ok T q = true) : key p.1 ≠ key q.2 := by
  intro heq
  have hnone := (canMove_iff.mp hq).2.2
  have hsome := (canMove_iff.mp hp).1
  rw [hT _ _ heq, hnone] at hsome
  cases hsome

theorem nodup_keysOf_cons : (keysOf key (p :: ps)).Nodup ↔
    key p.1 ≠ key p.2 ∧ Apart key p ps ∧ (keysOf key ps).Nodup := by
  simp only [keysOf, List.flatMap_cons, List.cons_append, List.nil_append, List.nodup_cons,
    List.mem_cons, List.mem_flatMap, List.not_mem_nil, or_false, not_or, not_exists, not_and, Apart]
  constructor
  · rintro ⟨⟨hne, h₁⟩, h₂, h₃⟩
    exact ⟨hne, fun q hq => ⟨fun h => (h₁ q hq).1 h.symm, fun h => (h₂ q hq).1 h.symm,
      fun h => (h₁ q hq).2 h.symm, fun h => (h₂ q hq).2 h.symm⟩, h₃⟩
  · rintro ⟨hne, h, h₃⟩
    exact ⟨⟨hne, fun q hq => ⟨fun e => (h q hq).1 e.symm, fun e => (h q hq).2.2.1 e.symm⟩⟩,
      fun q hq => ⟨fun e => (h q hq).2.1 e.symm, fun e => (h q hq).2.2.2 e.symm⟩, h₃⟩

/-! ## One move -/

variable [DecidableEq κ]

/-- What is at `s` is moved to `d`, changed by `g`. -/
def move (key : α → κ) (T : α → Option β) (s d : α) (g : β → β) (n : α) : Option β :=
  if key n = key d then (T s).map g else if key n = key s then none else T n

theorem Respects.move (hT : Respects key T) (s d : α) (g : β → β) :
    Respects key (move key T s d g) := by
  intro a b hab
  simp only [PartialMap.move, hab, hT a b hab]

theorem move_dest : move key T s d g d = (T s).map g := if_pos rfl

theorem move_source (hsd : key s ≠ key d) : move key T s d g s = none := by
  rw [move, if_neg hsd, if_pos rfl]

theorem move_of_ne (hd : key a ≠ key d) (hs : key a ≠ key s) : move key T s d g a = T a := by
  rw [move, if_neg hd, if_neg hs]

private theorem canMove_move (hapart : Apart key p ps) (hq : q ∈ ps) :
    canMove ok (move key T p.1 p.2 g) q = canMove ok T q := by
  obtain ⟨h₁, h₂, h₃, h₄⟩ := hapart q hq
  rw [canMove, canMove, move_of_ne h₂ h₁, move_of_ne h₄ h₃]

/-! ## Moves one after another -/

/-- Moves one after another, as long as they can be made. -/
def moveAll (key : α → κ) (ok : α → Bool) (f : α → β → β) (T : α → Option β) :
    List (α × α) → Option (α → Option β)
  | [] => some T
  | p :: ps =>
    if canMove ok T p then moveAll key ok f (move key T p.1 p.2 (f p.2)) ps else none

theorem source_ne_of_moveAll (hT : Respects key T) (hall : (moveAll key ok f T ps).isSome)
    (hnone : T a = none) (hdest : ∀ q ∈ ps, key q.2 ≠ key a) : ∀ q ∈ ps, key q.1 ≠ key a := by
  induction ps generalizing T with
  | nil => simp
  | cons p ps ih =>
    rw [moveAll] at hall
    split at hall
    case isFalse => cases hall
    case isTrue hp =>
      have hne : key p.1 ≠ key a := by
        intro heq
        have hsome := (canMove_iff.mp hp).1
        rw [hT _ _ heq, hnone] at hsome
        cases hsome
      have hfree : move key T p.1 p.2 (f p.2) a = none := by
        rw [move_of_ne (hdest p List.mem_cons_self).symm hne.symm, hnone]
      rw [List.forall_mem_cons] at hdest ⊢
      exact ⟨hne, ih (hT.move _ _ _) hall hfree hdest.2⟩

theorem dest_ne_of_moveAll (hT : Respects key T) (hall : (moveAll key ok f T ps).isSome)
    (hsome : (T a).isSome) (hsource : ∀ q ∈ ps, key q.1 ≠ key a) : ∀ q ∈ ps, key q.2 ≠ key a := by
  induction ps generalizing T with
  | nil => simp
  | cons p ps ih =>
    rw [moveAll] at hall
    split at hall
    case isFalse => cases hall
    case isTrue hp =>
      have hne : key p.2 ≠ key a := by
        intro heq
        rw [← hT _ _ heq, (canMove_iff.mp hp).2.2] at hsome
        cases hsome
      have hstays : (move key T p.1 p.2 (f p.2) a).isSome := by
        rwa [move_of_ne hne.symm (hsource p List.mem_cons_self).symm]
      rw [List.forall_mem_cons] at hsource ⊢
      exact ⟨hne, ih (hT.move _ _ _) hall hstays hsource.2⟩

theorem moveAll_isSome_iff (hT : Respects key T) (hps : ∀ p ∈ ps, canMove ok T p = true) :
    (moveAll key ok f T ps).isSome ↔ (keysOf key ps).Nodup := by
  induction ps generalizing T with
  | nil => simp [moveAll, keysOf]
  | cons p ps ih =>
    obtain ⟨hp, hps⟩ := List.forall_mem_cons.mp hps
    have hsd := key_ne_of_canMove hT hp hp
    rw [moveAll, if_pos hp, nodup_keysOf_cons]
    have hrest (hapart : Apart key p ps) : ∀ q ∈ ps,
        canMove ok (move key T p.1 p.2 (f p.2)) q = true := fun q hq => by
      rw [canMove_move hapart hq]
      exact hps q hq
    constructor
    · intro hall
      have hdest : ∀ q ∈ ps, key q.2 ≠ key p.1 := fun q hq => (key_ne_of_canMove hT hp (hps q hq)).symm
      have hsource : ∀ q ∈ ps, key q.1 ≠ key p.2 := fun q hq => key_ne_of_canMove hT (hps q hq) hp
      have hgone := source_ne_of_moveAll (hT.move _ _ _) hall (move_source hsd) hdest
      have hthere : (move key T p.1 p.2 (f p.2) p.2).isSome := by
        rw [move_dest, Option.isSome_map]
        exact (canMove_iff.mp hp).1
      have hstays := dest_ne_of_moveAll (hT.move _ _ _) hall hthere hsource
      have hapart : Apart key p ps := fun q hq => ⟨hgone q hq, hsource q hq, hdest q hq, hstays q hq⟩
      exact ⟨hsd, hapart, (ih (hT.move _ _ _) (hrest hapart)).mp hall⟩
    · rintro ⟨-, hapart, hnodup⟩
      exact (ih (hT.move _ _ _) (hrest hapart)).mpr hnodup

end PartialMap
