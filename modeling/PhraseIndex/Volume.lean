import PhraseIndex.Model

/-!
# Files and keyspaces

A `Volume` holds all files and, for each model directory, the index keyspace that is kept in it.
-/

namespace PhraseIndex

structure Volume where
  disk : Disk
  stores : Std.ExtTreeMap Place Store := ∅

namespace Volume

/-- What the model directory holds; its keyspace is empty before the first opening. -/
def durable (v : Volume) (place : Place) : Durable := { store := v.stores.getD place {}, disk := v.disk }

def setDurable (v : Volume) (place : Place) (d : Durable) : Volume :=
  { disk := d.disk, stores := v.stores.insert place d.store }

/-- Opens the keyspace of a model directory by itself. -/
def openStore (v : Volume) (place : Place) : Except Error Volume := do
  let disk ← (v.disk.makeDirectories (Model.indexPlace place)).mapError .os
  pure { v with disk }

end Volume

end PhraseIndex
