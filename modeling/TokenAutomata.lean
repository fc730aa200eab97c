import TokenAutomata.Main
import TokenAutomata.Program.FileTree
import TokenAutomata.Proofs.Diagnoses
import TokenAutomata.Proofs.DrawnTable
import TokenAutomata.Proofs.EarliestDefinition
import TokenAutomata.Proofs.FirstFault
import TokenAutomata.Proofs.JoinGrouping
import TokenAutomata.Proofs.Layout
import TokenAutomata.Proofs.LiveStates
import TokenAutomata.Proofs.ReachedPart
import TokenAutomata.Proofs.RegistryLexing
import TokenAutomata.Proofs.RegistryNumbering
import TokenAutomata.Proofs.RegistryRemovalOrder
import TokenAutomata.Proofs.SavedAutomata
import TokenAutomata.Proofs.StateChanges
import TokenAutomata.Proofs.TableGraph
import TokenAutomata.Proofs.TokenTexts
import TokenAutomata.Proofs.UniqueLabels
