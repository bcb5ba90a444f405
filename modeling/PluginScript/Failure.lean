import PluginScript.Peg.Mismatch
import PluginScript.Registry
import PluginScript.Storage
import PluginScript.Table.Grammar

/-! # Failures

What can go wrong between a plugin table and running plugins, as causes. A cause belongs to one of
four categories, and its message is the heading of the category with the wording of the cause.
-/

namespace PluginScript

/-- Why a plugin table could not be turned into running plugins. -/
inductive Failure where
  /-- The text is no plugin table. -/
  | malformedTable (mismatch : Peg.Mismatch Table.Rule)
  /-- A section names a global twice. -/
  | repeatedGlobal (owner : PluginId)
  /-- A section names no global. -/
  | missingGlobal (owner : PluginId)
  /-- A global cannot be registered. -/
  | rejected (cause : Rejection)
  /-- A file cannot be read. -/
  | unreadable (path : Text) (cause : ReadError)
  /-- The plugins cannot be started. -/
  | invocation (complaint : Text)

namespace Failure

/-- The stage at which something went wrong. -/
inductive Category where
  | config
  | registration
  | io
  | invocation
deriving DecidableEq, Repr

def category : Failure → Category
  | malformedTable _ => .config
  | repeatedGlobal _ | missingGlobal _ | rejected _ => .registration
  | unreadable .. => .io
  | invocation _ => .invocation

/-- The words that messages of a category begin with. -/
def Category.heading : Category → Text
  | config => "plugin config error: ".toList
  | registration => "plugin registration error: ".toList
  | io => "failed to read ".toList
  | invocation => "plugin invocation error: ".toList

/-- The wording of a cause, without the heading of its category. -/
def detail : Failure → Text
  | malformedTable mismatch => mismatch.report Table.Rule.all Table.Rule.label
  | repeatedGlobal owner => "duplicate 'global' key for ".toList ++ owner.name
  | missingGlobal owner => "missing 'global' key for ".toList ++ owner.name
  | rejected cause => cause.message
  | unreadable path cause => path ++ ": ".toList ++ cause.message
  | invocation complaint => complaint

/-- The message of a failure. -/
def message (failure : Failure) : Text :=
  failure.category.heading ++ failure.detail

end Failure

end PluginScript
