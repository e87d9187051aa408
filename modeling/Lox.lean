import Lox.Heap.Inspect
import Lox.Main
import Lox.Proofs.Grammar.Language
import Lox.Proofs.Scoping.Visits
import Lox.Proofs.Scoping.Recording
import Lox.Proofs.Eval.Alignment
import Lox.Proofs.Eval.Moments
import Lox.Proofs.Eval.ReadOnly
import Lox.Proofs.Grammar.Numbering
import Lox.Proofs.Eval.Runs
import Lox.Proofs.Eval.Expressions
import Lox.Proofs.Eval.Reached
import Lox.Proofs.Session.Turns
import Lox.Proofs.Scoping.Concord
import Lox.Proofs.Scoping.Counterparts
import Lox.Proofs.Scoping.Declarations
import Lox.Proofs.Scoping.Known
import Lox.Proofs.Session.Readings
import Lox.Proofs.Session.Performing
import Lox.Proofs.Session.Twins
import Lox.Proofs.Session.Forgetting
import Lox.Proofs.Scoping.Occurrences
import Lox.Proofs.Session.FrameChain
import Lox.Proofs.Eval.Effects
import Lox.Proofs.Eval.Restoring
import Lox.Proofs.Session.Context
import Lox.Proofs.Grammar.Naming
import Lox.Proofs.Scoping.Nesting
import Lox.Proofs.Scoping.Renaming
import Lox.Proofs.Session.Receivers
import Lox.Proofs.Grammar.Recasting
import Lox.Proofs.Scoping.Likeness
import Lox.Proofs.Eval.Resemblance
import Lox.Proofs.Eval.InStep
import Lox.Proofs.Eval.Lockstep
import Lox.Proofs.Session.Companions
import Lox.Proofs.Session.Attempts
import Lox.Proofs.Session.BareExpressions
import Lox.Proofs.Session.LocalNames
import Lox.Proofs.Session.Pieces
import Lox.Proofs.Scoping.Verdicts
import Lox.Proofs.Token.Joining
import Lox.Proofs.Grammar.Composition
import Lox.Proofs.Grammar.Progress
import Lox.Proofs.Grammar.Provenance
import Lox.Proofs.Grammar.FreshNumbers
import Lox.Proofs.Eval.Tracing
import Lox.Proofs.Heap.Forest
import Lox.Proofs.Eval.Growth
import Lox.Proofs.Session.Footprints
import Lox.Proofs.Session.FrameForest
import Lox.Proofs.Token.Lines
import Lox.Proofs.Session.ErrorLines
import Lox.Proofs.Token.Positions
import Lox.Proofs.Token.Rendering
import Lox.Proofs.Token.Literals
import Lox.Proofs.Heap.ArrayTexts
import Lox.Proofs.Eval.Completions
import Lox.Proofs.Session.Initializers
import Lox.Token.Cursor
import Lox.Proofs.Token.Cursors
import Lox.Proofs.Token.ByteScan
import Lox.Proofs.Token.Items
import Lox.Proofs.Scoping.Copies
import Lox.Proofs.Eval.Shedding
import Lox.Proofs.Eval.Abreast
import Lox.Proofs.Eval.SideBySide
import Lox.Proofs.Eval.CountingLoops
import Lox.Proofs.Eval.LoopCopies
import Lox.Proofs.Eval.Ordering
import Lox.Proofs.Heap.Lookups
import Lox.Proofs.Value.OrderLaws
import Lox.Proofs.Value.Lineage
import Lox.Proofs.Session.ForLoops
import Lox.Proofs.Session.MethodLookup
import Lox.Proofs.Session.BlockFrames
