import Chomsky.Main
import Chomsky.Proofs.SessionInvariant
import Chomsky.Proofs.Idempotence
import Chomsky.Proofs.RuleOrder
import Chomsky.Proofs.WordGrowth
import Chomsky.Proofs.LiteralForm
import Chomsky.Proofs.GrammarDocument
import Chomsky.Proofs.CompactDocument
import Chomsky.Proofs.EventLog
import Chomsky.Proofs.RuleRemoval
import Chomsky.Proofs.UsefulPart
import Chomsky.Proofs.Replacement
import Chomsky.Proofs.RepeatedRules
import Chomsky.Proofs.Contributions
import Chomsky.Proofs.UsefulNonterminals
import Chomsky.Proofs.UnaryClosure
import Chomsky.Proofs.EventTrace
import Chomsky.Proofs.AllocatorRuns
import Chomsky.Proofs.DerivationLength
import Chomsky.Proofs.Construction
import Chomsky.Proofs.CommandRun
import Chomsky.Proofs.LogLines
import Chomsky.Proofs.RecursiveWalk
