import VectorMachine.Proofs.Accelerator.Elimination

/-!
# The greatest typing

The typing of a program is the greatest consistent one.  That alone determines it, so it depends on
which instructions a program has and not on their order, and eliminating entries in place, one by one in
whatever order, comes to an end and finds the same types.
-/

namespace VectorMachine.Accelerator
set_option autoImplicit false

open Relation (ReflTransGen)

/-- Eliminations end, and from the survey of a program they end with its typing in every order, in
particular in that of the loop; the typing is the greatest consistent one, another round drops none of its
entries, and the same instructions in another order have the same. -/
theorem typing_greatest (p : Program) (s : Store) (m : Memory) :
    (WellFounded fun h g => Eliminates p.code.toList g h) ∧
    (∀ g, ReflTransGen (Eliminates p.code.toList) (survey p.code.toList s m).typing g →
      Settled p.code.toList g → g.type? = (typing p s m).type?) ∧
    (settle p.code.toList (survey p.code.toList s m).typing).type? = (typing p s m).type? ∧
    refine p.code.toList (typing p s m) = typing p s m ∧
    Consistent p.code.toList s m (typing p s m) ∧
    (∀ g, Consistent p.code.toList s m g → g ≤ typing p s m) ∧
    ∀ q : Program, q.code.toList.Perm p.code.toList →
      (typing q s m).type? = (typing p s m).type? := by
  refine ⟨wellFounded_eliminates _, fun g he hs => type?_of_eliminations he hs, ?_,
    refine_refineTimes (Nat.le_refl _), consistent_typing p s m, fun g hg => hg.le_typing,
    fun q hq => ?_⟩
  · obtain ⟨he, hs⟩ := settle_spec p.code.toList (survey p.code.toList s m).typing
    exact type?_of_eliminations he hs
  · apply Typing.type?_eq_of_le
    · exact ((consistent_typing q s m).perm hq).le_typing
    · exact ((consistent_typing p s m).perm hq.symm).le_typing

/-- The second local is written an int though it is a float, and the third is computed from it; the fourth
is allocated as a float again after it was as both. -/
def dropsInTurn : Program where
  code := #[
    { opcode := .alloc, types := [.int], operands := [⟨.locals, 0⟩] },
    { opcode := .alloc, types := [.float], operands := [⟨.locals, 1⟩] },
    { opcode := .alloc, types := [.float], operands := [⟨.locals, 2⟩] },
    { opcode := .alloc, types := [.int], operands := [⟨.locals, 3⟩] },
    { opcode := .alloc, types := [.float], operands := [⟨.locals, 3⟩] },
    { opcode := .alloc, types := [.float], operands := [⟨.locals, 3⟩] },
    { opcode := .move, types := [.any], operands := [⟨.locals, 0⟩, ⟨.constants, 0⟩] },
    { opcode := .arithmetic .add, types := [.float],
      operands := [⟨.locals, 2⟩, ⟨.locals, 1⟩, ⟨.locals, 0⟩] },
    { opcode := .move, types := [.any], operands := [⟨.locals, 1⟩, ⟨.locals, 0⟩] }]

/-- The first local and the constant are what is left, in either order and by the loop; a typing of the
constant alone is below. -/
theorem typing_greatest_dropsInTurn :
    let s : Store := (({} : Store).ofScalar (.int 7)).2
    let m : Memory := { constants := #[0] }
    let q : Program := { code := dropsInTurn.code.reverse }
    let g : Typing := ⟨[(⟨.constants, 0⟩, .int)]⟩
    (typing dropsInTurn s m).entries = [(⟨.constants, 0⟩, .int), (⟨.locals, 0⟩, .int)] ∧
      (typing q s m).type? = (typing dropsInTurn s m).type? ∧
      (settle q.code.toList (survey q.code.toList s m).typing).type? =
        (typing dropsInTurn s m).type? ∧
      g ≤ typing dropsInTurn s m := by
  intro s m q g
  obtain ⟨-, -, -, -, -, hgreatest, hperm⟩ := typing_greatest dropsInTurn s m
  obtain ⟨-, hends, -⟩ := typing_greatest q s m
  have hq : q.code.toList.Perm dropsInTurn.code.toList := by
    rw [show q.code.toList = _ from Array.toList_reverse]
    exact List.reverse_perm _
  have hg : Consistent dropsInTurn.code.toList s m g := by
    have hentry : ∀ x t, g.type? x = some t → x = ⟨.constants, 0⟩ ∧ t = .int := by
      intro x t ht
      simpa [g] using Typing.mem_of_type? ht
    refine ⟨⟨fun x t ht => ?_, fun x t ht => ?_, fun x t ht => ?_, fun x t ht _ => ?_,
      fun x t ht hx => ?_, fun x t ht hx => ?_⟩, fun x t ht hx => ?_⟩
    all_goals obtain ⟨rfl, rfl⟩ := hentry x t ht
    · decide
    · exact .inl rfl
    · exact .inl rfl
    · exact ⟨0, rfl, rfl, rfl⟩
    · exact absurd rfl hx
    · exact absurd rfl hx
    · exact absurd rfl hx
  obtain ⟨he, hs⟩ := settle_spec q.code.toList (survey q.code.toList s m).typing
  exact ⟨by decide +kernel, hperm q hq, (hends _ he hs).trans (hperm q hq), hgreatest g hg⟩

end VectorMachine.Accelerator
