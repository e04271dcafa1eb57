import StackMaps.Archive.CodePage437
import StackMaps.Archive.Crc32
import StackMaps.Archive.Deflate
import StackMaps.Archive.Zip
import StackMaps.Bytes
import StackMaps.ClassFile.AccessFlags
import StackMaps.ClassFile.Attribute
import StackMaps.ClassFile.Basic
import StackMaps.ClassFile.Constant
import StackMaps.ClassFile.Pool
import StackMaps.ClassPath.Basic
import StackMaps.ClassPath.Error
import StackMaps.ClassPath.JavaHome
import StackMaps.CommandLine
import StackMaps.Descriptor
import StackMaps.Error
import StackMaps.Files.Path
import StackMaps.Files.System
import StackMaps.Files.Tree
import StackMaps.Flow.Analysis
import StackMaps.Flow.Block
import StackMaps.Flow.Rebuild
import StackMaps.Frame.Merge
import StackMaps.Frame.StackMapFrame
import StackMaps.Frame.Stored
import StackMaps.Frame.Transfer
import StackMaps.Frame.VerificationType
import StackMaps.Hierarchy.Basic
import StackMaps.Hierarchy.ClassGraph
import StackMaps.Hierarchy.StandardClasses
import StackMaps.Instruction.Basic
import StackMaps.Instruction.Decode
import StackMaps.Instruction.Text
import StackMaps.Job
import StackMaps.Main
import StackMaps.Name
import StackMaps.SlotSeq
import StackMaps.Text.LossyUtf8
import StackMaps.Text.ModifiedUtf8
import StackMaps.Text.Quoted
import StackMaps.Warning
import StackMaps.Proofs.Answer
import StackMaps.Proofs.Name
import StackMaps.Proofs.Hierarchy.Superclass
import StackMaps.Proofs.Hierarchy.Assignable
import StackMaps.Proofs.Frame.Order
import StackMaps.Proofs.Frame.Merge
import StackMaps.Proofs.Frame.FrameMerge
import StackMaps.Proofs.Frame.Simulation
import StackMaps.Proofs.Frame.Step
import StackMaps.Proofs.Frame.Size
import StackMaps.Proofs.Frame.Transfer
import StackMaps.Proofs.Flow.Solution
import StackMaps.Proofs.Flow.Visit
import StackMaps.Proofs.Instruction.Code
import StackMaps.Proofs.Flow.Block
import StackMaps.Proofs.Flow.Graph
import StackMaps.Proofs.Flow.Settle
import StackMaps.Proofs.Flow.Sound
import StackMaps.Proofs.Flow.InitialFrame
import StackMaps.Proofs.Flow.Run
import StackMaps.Proofs.Frame.Assignable
import StackMaps.Proofs.Flow.Lazy
import StackMaps.Proofs.Analysis.Sound
import StackMaps.Proofs.Hierarchy.Rank
import StackMaps.Proofs.Frame.Rank
import StackMaps.Proofs.ClassFile.Pool
import StackMaps.Proofs.Descriptor
import StackMaps.Proofs.Flow.Termination
import StackMaps.Proofs.Frame.Mentions
import StackMaps.Proofs.Flow.Names
import StackMaps.Proofs.Analysis.Termination
import StackMaps.Proofs.Hierarchy.Complete
import StackMaps.Proofs.Frame.Joined
import StackMaps.Proofs.Flow.Progress
import StackMaps.Proofs.Frame.Join
import StackMaps.Proofs.Analysis.Complete
import StackMaps.Proofs.Bytes
import StackMaps.Proofs.Frame.StackMapFrame
import StackMaps.Proofs.ClassFile.Codec
import StackMaps.Proofs.Rebuild.Checks
import StackMaps.Proofs.Rebuild.Twice
import StackMaps.Proofs.Rebuild.Output
import StackMaps.Proofs.Flow.Agree
import StackMaps.Proofs.Flow.Resplit
import StackMaps.Proofs.Rebuild.Again
import StackMaps.Proofs.ClassFile.Requests
import StackMaps.Proofs.Instruction.Written
import StackMaps.Proofs.Instruction.Operands
import StackMaps.Proofs.Instruction.Layout
import StackMaps.Proofs.Flow.Moves
import StackMaps.Proofs.Flow.Entered
import StackMaps.Proofs.Frame.Made
import StackMaps.Proofs.Flow.Merged
import StackMaps.Proofs.Flow.Construction
import StackMaps.Proofs.Flow.Whole
import StackMaps.Proofs.Rebuild.Confined
import StackMaps.Proofs.Rebuild.Saved
import StackMaps.Proofs.Files.Path
import StackMaps.Proofs.Flow.Explored
import StackMaps.Proofs.Rebuild.Priority
import StackMaps.Proofs.Frame.Covariance
import StackMaps.Proofs.Rebuild.Paths
import StackMaps.Proofs.Rebuild.WellFormed
import StackMaps.Proofs.Hierarchy.Telling
import StackMaps.Proofs.Hierarchy.Bound
import StackMaps.Proofs.Hierarchy.Subtyping
import StackMaps.Proofs.ClassPath.Load
import StackMaps.Proofs.ClassPath.Session
import StackMaps.Proofs.Flow.Tiles
import StackMaps.Proofs.Frame.Shuffle
import StackMaps.Proofs.Frame.Widths
import StackMaps.Proofs.Flow.Shapes
import StackMaps.Proofs.Flow.Heights
import StackMaps.Proofs.Frame.Below
import StackMaps.Proofs.Table.Shortest
import StackMaps.Proofs.ClassFile.Bodies
import StackMaps.Proofs.ClassFile.WrittenBack
import StackMaps.Proofs.ClassFile.Reuse
import StackMaps.Proofs.ClassFile.Spelling
import StackMaps.Proofs.ClassFile.Delimited
import StackMaps.Proofs.Rebuild.Renewed
import StackMaps.Proofs.SlotSeq.Edited
import StackMaps.Proofs.Files.ImpliedRoot
