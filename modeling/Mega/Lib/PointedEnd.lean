/-
# Maps that fix a point

The maps of a type to itself that fix one point `z` form a monoid with zero
under composition: the constant map at `z` absorbs from both sides. A sequence
of such maps run one after the other is a product, in this monoid (the last
one first) or in its opposite (the first one first).

Key definition: `PointedEnd`.
Key theorems: `prod_map_apply`, `unop_prod_map_apply`.
-/
import Mathlib

/-- The maps of `X` to itself that fix `z`. -/
@[ext]
structure PointedEnd (X : Type*) (z : X) where
  toFun : X → X
  map_point : toFun z = z

namespace PointedEnd

variable {X ι : Type*} {z : X}

instance : MonoidWithZero (PointedEnd X z) where
  one := ⟨id, rfl⟩
  zero := ⟨fun _ => z, rfl⟩
  mul f g := ⟨f.toFun ∘ g.toFun, by simp [f.map_point, g.map_point]⟩
  mul_assoc _ _ _ := rfl
  one_mul _ := rfl
  mul_one _ := rfl
  zero_mul _ := rfl
  mul_zero f := PointedEnd.ext (funext fun _ => f.map_point)

theorem mul_apply (f g : PointedEnd X z) (x : X) : (f * g).toFun x = f.toFun (g.toFun x) := rfl

theorem prod_map_apply (d : ι → PointedEnd X z) (x : X) : ∀ l : List ι,
    (l.map d).prod.toFun x = l.foldr (fun i y => (d i).toFun y) x
  | [] => rfl
  | i :: l => by simp [mul_apply, prod_map_apply d x l]

theorem unop_prod_map_apply (d : ι → PointedEnd X z) : ∀ (l : List ι) (x : X),
    (l.map fun i => MulOpposite.op (d i)).prod.unop.toFun x = l.foldl (fun y i => (d i).toFun y) x
  | [], _ => rfl
  | i :: l, x => by simp [mul_apply, unop_prod_map_apply d l]

end PointedEnd
