import Treewalk.Folder
import Treewalk.Main
import Treewalk.Proofs.CommandLine.Agreement
import Treewalk.Proofs.Evaluation.Names
import Treewalk.Proofs.Evaluation.Printed
import Treewalk.Proofs.Grammar.Horizon
import Treewalk.Proofs.Grammar.Recovery
import Treewalk.Proofs.Grammar.SourceOrder
import Treewalk.Proofs.Prompt.CommandWords
import Treewalk.Proofs.Prompt.Complete
import Treewalk.Proofs.Scope.Lookup
import Treewalk.Proofs.Session.Blame
import Treewalk.Proofs.Session.Joining
import Treewalk.Proofs.Session.Loops
import Treewalk.Proofs.Session.Safety
import Treewalk.Proofs.Session.Scopes
import Treewalk.Proofs.Tree.Legibility
