import GadgetCircuits.Graph.Steiner

/-!
The order and the trees that are used unless others are given: sets are gone through in ascending order,
Steiner trees follow shortest paths, and spanning forests grow edge by edge.
-/

namespace GadgetCircuits

abbrev SetOrder.ascending : SetOrder where
  arrange _ members := members.mergeSort
  perm _ members := members.mergeSort_perm _

instance GraphLibrary.standard : GraphLibrary where
  toSetOrder := .ascending
  steinerTree := @Graph.steinerTree .ascending
  spanningForest := Graph.prim

end GadgetCircuits
