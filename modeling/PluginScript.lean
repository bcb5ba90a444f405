import PluginScript.Main
import PluginScript.Session
import PluginScript.Proofs.Idempotence
import PluginScript.Proofs.RuleOrder
import PluginScript.Proofs.SimultaneousEdits
import PluginScript.Proofs.Sightings
import PluginScript.Proofs.Dependencies
import PluginScript.Proofs.SlicedPass
import PluginScript.Proofs.TableRoundTrip
import PluginScript.Proofs.Relayout
import PluginScript.Proofs.Registration
import PluginScript.Proofs.CommandRuns
import PluginScript.Proofs.LastArgument
import PluginScript.Proofs.Occurrences
import PluginScript.Proofs.ForwardScan
import PluginScript.Proofs.CompletionEdits
import PluginScript.Proofs.Acceptance
import PluginScript.Proofs.TableConcatenation
import PluginScript.Proofs.TableMeaning
import PluginScript.Proofs.OutlineNotes
import PluginScript.Proofs.PassNotes
import PluginScript.Proofs.SpanBounds
import PluginScript.Proofs.RulePatterns
import PluginScript.Proofs.Readback
import PluginScript.Proofs.TableTermination
