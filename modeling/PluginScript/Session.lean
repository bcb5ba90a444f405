import PluginScript.Journal

/-! # Sessions

A session prepares scripts against one registry: it tells which plugins a script needs, has them
started by an invoker, and marks the script's calls. It carries a name of its own, a random
identifier in the usual written form of version 4, for whoever tells sessions apart; nothing that a
session answers depends on it.
-/

namespace PluginScript

/-- The name of a session, as its 32 hexadecimal digits. -/
structure SessionId where
  digits : List Nat
deriving DecidableEq, Repr

namespace SessionId

/-- The name made of 128 random bits. The thirteenth digit tells the version, which is 4, and the
two upper bits of the seventeenth tell the variant. -/
def ofRandom (bits : Nat) : SessionId where
  digits := (List.range 32).map fun index =>
    let digit := (bits >>> (4 * (31 - index))) % 16
    if index = 12 then 4 else if index = 16 then 8 + digit % 4 else digit

/-- The written form: lower-case digits in groups of 8, 4, 4, 4 and 12, with hyphens between. -/
def toText (id : SessionId) : Text :=
  let written := id.digits.map Nat.digitChar
  let group (start length : Nat) : Text := (written.drop start).take length
  List.intercalate ['-'] [group 0 8, group 8 4, group 12 4, group 16 4, group 20 12]

end SessionId

/-- A registry that scripts are prepared against, under a name. -/
structure Session where
  id : SessionId
  registry : Registry

/-- What starts plugins: given their types in order, it answers with one running plugin for each,
or with the reason why it cannot. -/
abbrev Invoker (α : Type) := List PluginId → Except Failure (List α)

namespace Session

/-- The plugins that a script depends on. -/
def dependencies (session : Session) (script : Text) : Logged (List PluginId) := do
  let plugins ← Journal.dependencies session.registry script
  ⟨plugins, [.scanned plugins.length]⟩

/-- Has the plugins that a script depends on started. -/
def invoke {α : Type} (session : Session) (script : Text) (invoker : Invoker α) :
    Logged (Except Failure (List α)) := do
  return invoker (← session.dependencies script)

/-- The script with the calls of all indexers marked. -/
def prepare (session : Session) (script : Text) : Logged Text := do
  let prepared ← Journal.prepare session.registry.callRules script
  ⟨prepared, [.prepared script.byteLength prepared.byteLength]⟩

@[simp] theorem value_dependencies (session : Session) (script : Text) :
    (session.dependencies script).value = session.registry.dependencies script := rfl

@[simp] theorem value_invoke {α : Type} (session : Session) (script : Text)
    (invoker : Invoker α) :
    (session.invoke script invoker).value =
      invoker (session.registry.dependencies script) := rfl

@[simp] theorem value_prepare (session : Session) (script : Text) :
    (session.prepare script).value = session.registry.prepare script := rfl

end Session

end PluginScript
