import SpanTree.Config

/-!
# Configurations field by field

What has been read of a configuration: each field is absent or given once. The fields that are
absent at the end take their defaults.
-/

namespace SpanTree

structure BillFields where
  noRootNode : Option Bool := none
  rootName : Option String := none

structure OutputFields where
  serializer : Option String := none
  logger : Option String := none
  gzip : Option Bool := none
  bill : Option BillConfig := none

def BillFields.complete (f : BillFields) : BillConfig :=
  let d : BillConfig := {}
  ⟨f.noRootNode.getD d.noRootNode, f.rootName.getD d.rootName⟩

def OutputFields.complete (f : OutputFields) : OutputConfig :=
  let d : OutputConfig := {}
  ⟨f.serializer.getD d.serializer, f.logger.getD d.logger, f.gzip.getD d.gzip, f.bill.getD d.bill⟩

end SpanTree
