import Gatework.Proofs.Builder.Composition
import Gatework.Synthesis.BiDecomposition

/-!
# What synthesis does to a builder

Both methods of synthesis add gates of bounded width and constants, and nothing else.  So a relation
between builders that composes and holds of these single steps (`Gatewise`) holds of a whole synthesis.

* `Gatewise.addFunction`: a sum of products.
* `Gatewise.decompose`: a bi-decomposition, by induction on its depth.
-/

namespace Gatework

open Builder

/-- A relation that composes and holds of each gate with few enough operands and of each constant that
is added. -/
structure Gatewise (width : Nat) (R : Builder → Builder → Prop) : Prop extends Composes R where
  addCell : ∀ symbol links, links.length ≤ width → Relates R (Builder.addCell symbol links)
  addConst : ∀ value, Relates R (Builder.addConst value)

namespace Gatewise

variable {arity n : Nat} {R : Builder → Builder → Prop} (h : Gatewise (max 2 arity) R)
include h

lemma addTree (symbol : Symbol) (links : List Link) : Relates R (Builder.addTree symbol links arity) :=
  h.toComposes.addTree (fun group hgroup => h.addCell symbol group hgroup) h.addConst links

/-! ## Sums of products -/

lemma addCube (inputs : Array Link) (c : Cube) : Relates R (SumOfProducts.addCube inputs arity c) := by
  refine h.bind (h.mapM fun literal _ => ?_) fun literals => h.addTree _ literals
  dsimp only
  split
  · exact h.pure _
  · exact relates_throw _

lemma addCubes (inputs : Array Link) (cubes : List Cube) :
    Relates R (SumOfProducts.addCubes inputs arity cubes) :=
  h.bind (h.mapM fun c _ => h.addCube inputs c) fun terms => h.addTree _ terms

theorem addFunction (inputs : Array Link) (r : Requirement n) :
    Relates R (SumOfProducts.addFunction inputs arity r) := by
  unfold SumOfProducts.addFunction
  split
  · exact h.addConst false
  split
  · exact h.addConst true
  refine h.bind (h.lift _) fun direct => h.bind (h.lift _) fun complement => ?_
  split
  · exact h.bind (h.addCubes inputs _) fun _ => h.pure _
  · exact h.addCubes inputs _

/-! ## Bi-decompositions -/

lemma addCover (inputs : Array Link) (r : Requirement n) :
    Relates R (BiDecomposition.addCover inputs arity r) :=
  h.bind (h.lift _) fun _ => h.bind (h.addCubes inputs _) fun _ => h.pure _

omit h in
lemma addParts (h : Composes R) {build : Requirement n → Build (BiDecomposition.Realized n)}
    (hbuild : ∀ r, Relates R (build r)) (r : Requirement n) (left right : Nat) :
    Relates R (BiDecomposition.addParts build r left right) :=
  h.bind (hbuild _) fun _ => h.bind (hbuild _) fun _ => h.pure _

/-- A gate with two operands. -/
lemma addPair (g : Gate) (k l : Link) : Relates R (Builder.addCell (.gate g) [k, l]) :=
  h.addCell _ _ (Nat.le_max_left 2 arity)

/-- Wherever the recursion leads, it adds gates and constants. -/
theorem decompose (inputs : Array Link) (fuel : Nat) (r : Requirement n) :
    Relates R (BiDecomposition.decompose inputs arity fuel r) := by
  induction fuel generalizing r with
  | zero => exact relates_throw _
  | succ fuel ih =>
      unfold BiDecomposition.decompose
      split
      · exact h.bind (h.addConst false) fun _ => h.pure _
      split
      · exact h.bind (h.addConst true) fun _ => h.pure _
      dsimp only
      split
      · exact h.addCover inputs r
      · exact h.bind (addParts h.toComposes ih _ _ _) fun parts =>
          h.bind (h.addPair .or _ _) fun _ => h.pure _
      · exact h.bind (addParts h.toComposes ih _ _ _) fun parts =>
          h.bind (h.addPair .and _ _) fun _ => h.pure _
      · exact h.bind (ih _) fun _ => h.bind (ih _) fun _ =>
          h.bind (h.addPair .xor _ _) fun _ => h.pure _

end Gatewise

end Gatework
