import InstructionTree.Text
import InstructionTree.Flags
import InstructionTree.Slot
import InstructionTree.Opcode
import InstructionTree.Operand
import InstructionTree.Fault
import InstructionTree.Node
import InstructionTree.Forest.Basic
import InstructionTree.Forest.Lifetime
import InstructionTree.Forest.Lineage
import InstructionTree.Forest.Owner
import InstructionTree.Collection.Basic
import InstructionTree.Collection.Edit
import InstructionTree.Collection.Filter
import InstructionTree.Collection.Draw
import InstructionTree.Cursor
import InstructionTree.Forest.Children
import InstructionTree.Tree
import InstructionTree.Forest.Subtree
import InstructionTree.Session.Basic
import InstructionTree.Session.Request
import InstructionTree.Session.Script
import InstructionTree.Session.Journal
import InstructionTree.Proofs.Forest.Fields
import InstructionTree.Proofs.Forest.Shedding
import InstructionTree.Proofs.Forest.Lineage
import InstructionTree.Proofs.Forest.Sound
import InstructionTree.Proofs.Forest.Touch
import InstructionTree.Proofs.Collection.Steps
import InstructionTree.Proofs.Forest.Steps
import InstructionTree.Proofs.Collection.Sifting
import InstructionTree.Proofs.Forest.Holding
import InstructionTree.Proofs.Forest.Calm
import InstructionTree.Proofs.Forest.Account
import InstructionTree.Proofs.Collection.Exchanges
import InstructionTree.Proofs.Forest.Places
import InstructionTree.Proofs.Collection.Success
import InstructionTree.Proofs.Collection.Places
import InstructionTree.Proofs.Forest.Operands
import InstructionTree.Proofs.Collection.Culling
import InstructionTree.Proofs.Runs.Operation
import InstructionTree.Proofs.Runs.Sound
import InstructionTree.Proofs.Runs.Edits
import InstructionTree.Proofs.Runs.Plain
import InstructionTree.Proofs.Runs.Listed
import InstructionTree.Proofs.Runs.Places
import InstructionTree.Proofs.Forest.Settled
import InstructionTree.Proofs.Runs.Counts
import InstructionTree.Proofs.Runs.Trees
import InstructionTree.Proofs.Collection.Contract
import InstructionTree.Proofs.Forest.Asking
import InstructionTree.Proofs.Forest.Caches
import InstructionTree.Proofs.Forest.Answers
import InstructionTree.Proofs.Collection.Caches
import InstructionTree.Proofs.Runs.Caches
import InstructionTree.Proofs.Runs.Rings
import InstructionTree.Proofs.Runs.Balance
import InstructionTree.Proofs.Collection.Debts
import InstructionTree.Proofs.Runs.InPlace
import InstructionTree.Proofs.Forest.Works
import InstructionTree.Proofs.Forest.Versions
import InstructionTree.Proofs.Collection.Guarded
import InstructionTree.Proofs.Collection.Stored
import InstructionTree.Proofs.Collection.Versions
import InstructionTree.Proofs.Runs.Guarded
import InstructionTree.Proofs.Runs.Worlds
import InstructionTree.Proofs.Runs.Journeys
import InstructionTree.Proofs.Runs.Drawing
import InstructionTree.Proofs.Runs.Traversals
import InstructionTree.Proofs.Runs.Lasting
import InstructionTree.Proofs.Runs.Versions
import InstructionTree.Proofs.Runs.Cursors
import InstructionTree.Proofs.Runs.Enumeration
import InstructionTree.Proofs.Runs.Inside
import InstructionTree.Proofs.Forest.Climbs
import InstructionTree.Proofs.Runs.Seen
import InstructionTree.Proofs.Collection.Faults
import InstructionTree.Proofs.Collection.Lists
import InstructionTree.Proofs.Runs.Lists
import InstructionTree.Proofs.Forest.Faults
import InstructionTree.Proofs.Runs.Faults
import InstructionTree.Proofs.Runs.Tracked
import InstructionTree.Proofs.Collection.Compaction
import InstructionTree.Proofs.Runs.Compaction
import InstructionTree.Proofs.Collection.Refitting
import InstructionTree.Proofs.Runs.Refitting
import InstructionTree.Proofs.Runs.Informed
import InstructionTree.Proofs.Forest.Reaping
import InstructionTree.Proofs.Forest.Commits
import InstructionTree.Proofs.Forest.Refilling
import InstructionTree.Proofs.Forest.Thinning
import InstructionTree.Proofs.Collection.Shrinking
import InstructionTree.Proofs.Collection.Pruning
import InstructionTree.Proofs.Runs.Pruning
import InstructionTree.Proofs.Collection.Replacing
import InstructionTree.Proofs.Collection.Repeating
import InstructionTree.Proofs.Runs.Replacing
import InstructionTree.Proofs.Runs.Repeating
import InstructionTree.Proofs.Forest.Building
import InstructionTree.Proofs.Runs.Building
import InstructionTree.Proofs.Collection.Agreement
import InstructionTree.Proofs.Session.Agreement
import InstructionTree.Proofs.Forest.Indices
import InstructionTree.Proofs.Runs.Indices
import InstructionTree.Proofs.Forest.Lookup
import InstructionTree.Proofs.Runs.Lookup
import InstructionTree.Proofs.Collection.Inserting
import InstructionTree.Proofs.Runs.Inserting
import InstructionTree.Proofs.Forest.Ascents
import InstructionTree.Proofs.Collection.Rejections
import InstructionTree.Proofs.Runs.Upheld
import InstructionTree.Proofs.Runs.Rejections
import InstructionTree.Proofs.Collection.Altering
import InstructionTree.Proofs.Runs.OwnPlace
import InstructionTree.Proofs.Printing.Numerals
import InstructionTree.Proofs.Printing.Trees
import InstructionTree.Proofs.Printing.Nodes
import InstructionTree.Proofs.Collection.Closing
import InstructionTree.Proofs.Runs.Closing
import InstructionTree.Proofs.Forest.Invalidation
import InstructionTree.Proofs.Collection.Invalidation
import InstructionTree.Proofs.Runs.Invalidation
