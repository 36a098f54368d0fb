import Gatework.Evaluation
import Gatework.Npn.Canonical
import Gatework.Subnet.Image

/-!
# Catalogues of implementations

A catalogue lists known networks by the class of the function they compute.  A network is stored
transformed, so that it computes the canonical form of its class; a query is answered by the stored
networks of its class together with the transform that leads back to the query.  No two networks of
a catalogue have the same structure.
-/

namespace Gatework

/-- Known implementations by class.  Networks are given by their positions in the store. -/
structure Catalogue where
  /-- The stored networks of each class, in increasing order of the classes. -/
  classes : List (WordTable × List Nat) := []
  /-- The imprints of the stored networks, the latest first. -/
  imprints : List (List UInt8 × Nat) := []

/-- The stored networks of the class of a query, and the transform from the canonical form to the
query. -/
structure Finding where
  networks : List Nat
  transform : Transform

namespace Catalogue

/-- The catalogue without networks. -/
def empty : Catalogue := {}

/-- The number of classes. -/
def size (c : Catalogue) : Nat := c.classes.length

/-- The number of stored networks. -/
def networkCount (c : Catalogue) : Nat := c.classes.foldl (fun n (_, networks) => n + networks.length) 0

/-- Changes the networks of one class; a class that is not listed yet has none. -/
def alterClass (key : WordTable) (f : List Nat → List Nat) :
    List (WordTable × List Nat) → List (WordTable × List Nat)
  | [] => [(key, f [])]
  | (k, networks) :: rest =>
      match key.order k with
      | .lt => (key, f []) :: (k, networks) :: rest
      | .eq => (k, f networks) :: rest
      | .gt => (k, networks) :: alterClass key f rest

/-- The networks of a class. -/
def networksOf? (c : Catalogue) (key : WordTable) : Option (List Nat) :=
  (c.classes.find? (·.1 == key)).map (·.2)

/-- The stored network with an imprint. -/
def known? (c : Catalogue) (imprint : List UInt8) : Option Nat := c.imprints.lookup imprint

/-- Stores the network at `position` under its class and returns the position of the stored one.  A
network with the structure of the stored form may be there already; then nothing is added to the
catalogue.  Functions of more than six variables have no class. -/
def insert (c : Catalogue) (store : Store) (net : Subnet) :
    Except Fault (Option Nat × Store × Catalogue) :=
  if net.numOutputs ≠ 1 then .error .catalogueOutputs
  else do
    match ← store.tabulate net with
    | [] => .error .internal
    | f :: _ =>
        match f.canonical? with
        | none => return (none, store, c)
        | some (form, transform) =>
            let stored ← transform.onSubnet net
            let (store, position) := store.addSubnet stored
            match c.known? stored.imprint with
            | some existing => return (some existing, store, c)
            | none => return (some position, store, {
                classes := alterClass (.ofTable form) (· ++ [position]) c.classes
                imprints := (stored.imprint, position) :: c.imprints })

/-- The implementations known for the class of a function. -/
def find? {n : Nat} (c : Catalogue) (f : TruthTable n) : Option Finding := do
  let (form, transform) ← f.canonical?
  let networks ← c.networksOf? (.ofTable form)
  return ⟨networks, transform.inverse⟩

end Catalogue

/-- A network for the query, made from the stored network number `i`. -/
def Finding.realize (f : Finding) (store : Store) (i : Nat) : Except Fault Subnet :=
  match (f.networks[i]?).bind (store.subnets[·]?) with
  | some net => f.transform.onSubnet net
  | none => .error .internal

end Gatework
