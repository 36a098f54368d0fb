import Gatework.Cut.Cone
import Gatework.Proofs.Builder.Gates
import Gatework.Proofs.Image
import Gatework.Proofs.Npn.Built
import Gatework.Proofs.Reader.Faithful
import Gatework.Synthesis.Arithmetic

/-!
# Where networks come from

`Store.Makes` lists the ways in which a network comes to be added to a store, other than by finishing a
builder: it is read from a text or restored from an image, it is the cone of a cut, it is synthesised for
a function or an arithmetic operation, or it is a transformed network of the store.

**Main statement.** `Store.Makes.houses`: over a store that begins with the gates and has types for the
cells of its own networks, each of these ways leads to a network for whose cells the store has types.
-/

namespace Gatework

open Builder

variable {store : Store} {net : Subnet}

/-! ## Cones -/

section Cone

variable (gates : Store.empty.Extends store)
include gates

lemma housed_copy (cells : Array Cell) (root fuel : Nat) (copies : Cone.Copies) (entry : Nat) :
    KeepsHoused store (Cone.copy store cells root fuel copies entry) := by
  have composes := composes_housed store
  induction fuel generalizing copies entry with
  | zero => exact relates_throw _
  | succ fuel ih =>
      unfold Cone.copy
      split
      · exact composes.pure _
      split
      · exact relates_throw _
      split
      · exact relates_throw _
      refine composes.bind (composes.foldlM (fun copies d _ => ih copies d) _) fun copies => ?_
      refine composes.bind (composes.lift _) fun links => ?_
      split
      · exact composes.bind (housed_addCell gates _ links) fun place => composes.pure _
      · exact composes.bind (housed_addOfType gates _ links) fun place => composes.pure _

/-- The cells of a cone are added one by one, so the store has types for them. -/
theorem Store.houses_cone {cells : Array Cell} {cut : Cut} {cone : Cone}
    (run : Cone.extract store cells cut = .ok cone) : store.Houses cone.net := by
  have composes := composes_housed store
  obtain ⟨⟨sources, b⟩, hbuild, run⟩ := bind_eq_ok_iff.1 run
  obtain ⟨finished, hfinish, run⟩ := bind_eq_ok_iff.1 run
  cases run
  have built : KeepsHoused store (Cone.build store cells cut) := by
    refine composes.bind (composes.foldlM (fun copies leaf _ => ?_) _) fun copies => ?_
    · exact composes.bind (housed_addInput gates) fun place => composes.pure _
    refine composes.bind (housed_copy gates cells _ _ _ _) fun copies => ?_
    split
    · exact composes.bind (housed_addOutput gates _).discard fun _ => composes.pure _
    · exact composes.bind (relates_throw _) fun _ => composes.pure _
  have start : (Builder.empty {}).Shaped store.Takes := by simp [Shaped, Builder.empty]
  exact (built _ _ _ hbuild start).finish hfinish

end Cone

/-! ## Arithmetic -/

namespace Arithmetic

lemma gates_ripple (carry : Option Link) (operands : List (Link × Link)) :
    KeepsGates (ripple carry operands) := by
  induction operands generalizing carry with
  | nil =>
      cases carry with
      | none => exact composes_gates.bind (gates_addConst false) fun _ => composes_gates.pure _
      | some c => exact composes_gates.pure _
  | cons pair rest ih =>
      cases carry with
      | none =>
          exact composes_gates.bind (gates_addCell _ _) fun sum =>
            composes_gates.bind (gates_addCell _ _) fun carry =>
              composes_gates.bind (ih _) fun _ => composes_gates.pure _
      | some c =>
          exact composes_gates.bind (gates_addCell _ _) fun sum =>
            composes_gates.bind (gates_addCell _ _) fun carry =>
              composes_gates.bind (ih _) fun _ => composes_gates.pure _

lemma gates_addOutputs (links : List Link) :
    KeepsGates (do for l in links do discard (addOutput l)) := by
  refine composes_gates.bind ?_ fun _ => composes_gates.pure _
  induction links with
  | nil => exact composes_gates.pure _
  | cons l links ih =>
      rw [List.forIn_cons]
      refine composes_gates.bind (composes_gates.bind (gates_addOutput l).discard fun _ =>
        composes_gates.pure _) fun step => ?_
      cases step with
      | done => exact composes_gates.pure _
      | yield => exact ih

lemma ofGates_network {width : Nat} {build : List Link → List Link → Build (List Link)}
    (hbuild : ∀ a b, KeepsGates (build a b)) (run : synthesize.network width build = .ok net) :
    net.OfGates :=
  shaped_toSubnet (composes_gates.bind (gates_addInputs width) fun a =>
    composes_gates.bind (gates_addInputs width) fun b =>
      composes_gates.bind (hbuild a b) gates_addOutputs) run

/-- Adders and subtractors are networks of gates. -/
theorem ofGates_synthesize {op : Arithmetic} {width : Nat}
    (run : synthesize op width = .ok (some net)) : net.OfGates := by
  unfold synthesize at run
  split at run
  · cases run
  cases op with
  | add =>
      obtain ⟨_, hrun, ⟨⟩⟩ := map_eq_ok_iff.1 run
      exact ofGates_network (fun a b => gates_ripple _ _) hrun
  | sub =>
      obtain ⟨_, hrun, ⟨⟩⟩ := map_eq_ok_iff.1 run
      exact ofGates_network (fun a b =>
        composes_gates.bind (gates_addConst true) fun one => gates_ripple _ _) hrun
  | mul => cases run
  | div => cases run
  | rem => cases run

end Arithmetic

/-! ## Sources -/

namespace Store

/-- The ways to a network that is added to a store. -/
inductive Makes (store : Store) : Subnet → Prop where
  | text {text : String} {net : Subnet} : store.read text = .ok net → Makes store net
  | image {image : Image} {net : Subnet} : image.restore store = .ok net → Makes store net
  | cone {cells : Array Cell} {cut : Cut} {cone : Cone} :
      Cone.extract store cells cut = .ok cone → Makes store cone.net
  | synthesis {m : Method} {n arity : Nat} {f : TruthTable n} {care : Option (TruthTable n)}
      {net : Subnet} : m.synthesize store f care arity = .ok (some net) → Makes store net
  | arithmetic {op : Arithmetic} {width : Nat} {net : Subnet} :
      op.synthesize width = .ok (some net) → Makes store net
  | transform {t : Transform} {net net' : Subnet} :
      net ∈ store.subnets → t.onSubnet net = .ok net' → Makes store net'

variable (gates : Store.empty.Extends store) (housed : ∀ net ∈ store.subnets, store.Houses net)
include gates housed

/-- A method makes a network of gates, or transforms one that is stored. -/
lemma houses_synthesize {m : Method} {n arity : Nat} {f : TruthTable n} {care : Option (TruthTable n)}
    (run : m.synthesize store f care arity = .ok (some net)) : store.Houses net := by
  cases m with
  | sumOfProducts =>
      obtain ⟨_, hrun, ⟨⟩⟩ := map_eq_ok_iff.1 run
      exact ((SumOfProducts.ofGates_synthesize hrun).hosts gates).houses
  | biDecomposition =>
      obtain ⟨_, hrun, ⟨⟩⟩ := map_eq_ok_iff.1 run
      exact ((BiDecomposition.ofGates_synthesize hrun).hosts gates).houses
  | catalogue c =>
      simp only [Method.synthesize] at run
      split at run
      · cases run
      split at run
      · cases run
      obtain ⟨_, hrun, ⟨⟩⟩ := map_eq_ok_iff.1 run
      unfold Finding.realize at hrun
      split at hrun
      · rename_i stored hstored
        obtain ⟨p, -, hstored⟩ := Option.bind_eq_some_iff.1 hstored
        exact (housed stored (Arena.mem_of_getElem? hstored)).onSubnet gates hrun
      · cases hrun

/-- The store has types for the cells of what is made over it. -/
theorem Makes.houses (made : store.Makes net) : store.Houses net := by
  cases made with
  | text hread => exact Hosts.houses fun c hc => ((legible_of_read hread).1 c hc).admits
  | image hrestore => exact (restore_eq_ok_iff.1 hrestore).2.1.houses
  | cone run => exact houses_cone gates run
  | synthesis run => exact houses_synthesize gates housed run
  | arithmetic run => exact ((Arithmetic.ofGates_synthesize run).hosts gates).houses
  | transform hnet run => exact (housed _ hnet).onSubnet gates run

end Store

end Gatework
