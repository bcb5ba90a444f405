import PluginScript.Proofs.RegistryRuns
import PluginScript.Proofs.Settled

/-! # Preparing a script twice

A prepared script is settled for every rule it was prepared with, so preparing it again changes
nothing.
-/

namespace PluginScript

namespace CallRule

/-- A pass leaves a text alone that is settled for the rule. -/
theorem pass_eq_self_of_settled {rule : CallRule} (named : rule.Named) {text : Text}
    (settled : (Outline.ofText text).Settled rule []) : rule.pass text = text := by
  rw [← Outline.text_ofText (rule.pass text), Outline.ofText_pass named,
    Outline.pass_eq_self_of_settled settled, Outline.text_ofText]

theorem prepare_eq_self_of_settled {rules : List CallRule} (named : ∀ rule ∈ rules, rule.Named)
    {script : Text} (settled : ∀ rule ∈ rules, (Outline.ofText script).Settled rule []) :
    prepare rules script = script := by
  induction rules with
  | nil => rfl
  | cons rule rules ih =>
    rw [prepare_cons, pass_eq_self_of_settled (named rule List.mem_cons_self)
      (settled rule List.mem_cons_self)]
    apply ih
    · intro other member
      exact named other (List.mem_cons_of_mem _ member)
    · intro other member
      exact settled other (List.mem_cons_of_mem _ member)

end CallRule

/-- A registry prepares a script that it has prepared as it stands. -/
theorem Registry.prepare_prepare (globals : List Global) (script : Text) :
    (afterAttempts globals).prepare ((afterAttempts globals).prepare script) =
      (afterAttempts globals).prepare script := by
  have named := named_callRules_afterAttempts globals
  exact CallRule.prepare_eq_self_of_settled named fun rule member =>
    CallRule.settled_prepare named member script

end PluginScript
