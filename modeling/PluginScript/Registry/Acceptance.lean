import PluginScript.Registry

/-! # Lists of globals that can be registered

Which globals can be registered together is a condition on their list as a whole (`Acceptable`). It
does not mention an order, whereas a registry takes the globals one by one and compares each with
those in front of it; what can be wrong with a global then is its `Fault`.
-/

namespace PluginScript

/-- A global whose name and indexers are words. -/
structure Global.WellNamed (global : Global) : Prop where
  name : global.name.isWord = true
  indexers : ∀ method ∈ global.indexers, method.isWord = true

namespace Registry

/-- Globals that can be registered together: all their names are words, and no two of them share a
name or an owner. -/
structure Acceptable (globals : List Global) : Prop where
  wellNamed : ∀ global ∈ globals, global.WellNamed
  names : (globals.map Global.name).Nodup
  owners : (globals.map Global.owner).Nodup

/-- What is wrong with a global behind earlier ones: the first that applies of its name, its
indexers from the first to the last, a clash of names and a clash of owners. -/
inductive Fault (earlier : List Global) (global : Global) : Rejection → Prop where
  | invalidName (noWord : global.name.isWord = false) :
      Fault earlier global (.invalidName global.name global.owner)
  | invalidIndexer (front : List Text) (method : Text) (back : List Text)
      (name : global.name.isWord = true) (split : global.indexers = front ++ method :: back)
      (words : ∀ other ∈ front, other.isWord = true) (noWord : method.isWord = false) :
      Fault earlier global (.invalidIndexer method global.name)
  | nameTaken (wellNamed : global.WellNamed) (taken : global.name ∈ earlier.map Global.name) :
      Fault earlier global (.nameTaken global.name)
  | ownerTaken (wellNamed : global.WellNamed) (free : global.name ∉ earlier.map Global.name)
      (taken : global.owner ∈ earlier.map Global.owner) :
      Fault earlier global (.ownerTaken global.owner)

end Registry

end PluginScript
