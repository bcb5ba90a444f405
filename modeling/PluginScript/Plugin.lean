import PluginScript.Text

/-! # Plugins

A plugin is known by the name of its type. Names are ordered by their code points, which is also
the order of their UTF-8 encodings.
-/

namespace PluginScript

/-- Whether one text stands before another or equals it, by code points. -/
def Text.le : Text → Text → Bool
  | [], _ => true
  | _ :: _, [] => false
  | c :: first, d :: second => decide (c.toNat < d.toNat) || (c == d && Text.le first second)

/-- The type of a plugin. -/
structure PluginId where
  name : Text
deriving DecidableEq, Repr

namespace PluginId

/-- The order of plugin types is the order of their names. -/
def le (first second : PluginId) : Bool :=
  Text.le first.name second.name

/-- Plugin types in increasing order, repeated ones included. -/
def sort (plugins : List PluginId) : List PluginId :=
  plugins.mergeSort le

/-- Each plugin type once. -/
def distinct (plugins : List PluginId) : List PluginId :=
  plugins.eraseDups

end PluginId

end PluginScript
