import Hvm.Machine
import Hvm.Aot.Dispatch
import Hvm.Aot.Names
import Hvm.Linear.Registers
import Hvm.Linear.Rules
import Hvm.Linear.Alo
import Hvm.Linear.Machine
import Hvm.Linear.Live
import Hvm.Linear.Ownership
import Hvm.Linear.Run
import Hvm.Cnf.Machine
import Hvm.Whnf
import Hvm.Cnf.Collapsed
import Hvm.Cnf.Linear
import Hvm.Cnf.Run
import Hvm.Cnf.Collapse
import Hvm.Normalize.Workers
import Hvm.Wsq.Deque
import Hvm.Wsq.Linear
import Hvm.Parse.AutoDup
import Hvm.Parse.Grammar
import Hvm.Parse.Program
import Hvm.Effect
import Hvm.Parse.Moves
import Hvm.Parse.Fields
import Hvm.Parse.Labels
import Hvm.Parse.Linearise
import Hvm.Parse.Chain
import Hvm.Parse.Cloned
import Hvm.Parse.Owned
import Hvm.Parse.Clones
import Hvm.Parse.Outcome
import Hvm.Parse.AffineAtoms
import Hvm.Parse.AffineBinders
import Hvm.Parse.AffineLambdas
import Hvm.Parse.AffineDups
import Hvm.Parse.AffineForks
import Hvm.Parse.Affine
import Hvm.Collapse.Worker
import Hvm.Collapse.Moves
import Hvm.Collapse.Phases
import Hvm.Collapse.Pool
import Hvm.Collapse.Kept
import Hvm.Collapse.Still
import Hvm.Collapse.Lossless
import Hvm.Collapse.Limit
import Hvm.Collapse.Search
import Hvm.Collapse.Single
import Hvm.Match.Chain
import Hvm.Match.Select
import Hvm.Match.Kinds
import Hvm.Match.Switch
import Hvm.Match.Compiled
import Hvm.Match.Literals
import Hvm.Parse.Lists
import Hvm.Print.Strings
import Hvm.Parse.Counting
import Hvm.Memory.Banks
import Hvm.Numeric.Evaluate
import Hvm.Dynamic.Fire
import Hvm.Dynamic.Labels
import Hvm.Infix.Blank
import Hvm.Infix.Climb
import Hvm.Infix.Operand
import Hvm.Infix.Arguments
import Hvm.Infix.Atom
import Hvm.Infix.Table
import Hvm.Infix.Sequence
import Hvm.Data.Datum
import Hvm.Data.Spelling
import Hvm.Data.Fine
import Hvm.Data.Printing
import Hvm.Data.Printed
import Hvm.Data.Placed
import Hvm.Data.Building
import Hvm.Data.Reading
import Hvm.Data.Elements
import Hvm.Data.RoundTrip
import Hvm.Choice.Alo
import Hvm.Choice.Cnf
import Hvm.Choice.Collapse
import Hvm.Choice.Equality
import Hvm.Choice.Steps
import Hvm.Normalize.Traversal
import Hvm.Normalize.Visits
import Hvm.Print.Names
import Hvm.Cnf.Book
import Hvm.Normalize.Uset
import Hvm.Print.Labels
