import RenameAudit.ClassFile.Writer
import RenameAudit.Files.Memory
import RenameAudit.Main
import RenameAudit.Settings.LogFilter
import RenameAudit.Proofs.Graph.DepthFirst
import RenameAudit.Proofs.Sets.Forest
import RenameAudit.Proofs.Sets.Partition
import RenameAudit.Proofs.Hierarchy.OverrideGraph
import RenameAudit.Proofs.Hierarchy.Reading
import RenameAudit.Proofs.Hierarchy.TakingIn
import RenameAudit.Proofs.Hierarchy.Passes
import RenameAudit.Proofs.Hierarchy.Runs
import RenameAudit.Proofs.Hierarchy.Ancestors
import RenameAudit.Proofs.Check.Exposures
import RenameAudit.Proofs.Check.Groups
import RenameAudit.Proofs.Check.FindingOrder
import RenameAudit.Proofs.Check.Mismatch
import RenameAudit.Proofs.Check.Closure
import RenameAudit.Proofs.Check.QuickWithinClosure
import RenameAudit.Proofs.Hierarchy.Bridges
import RenameAudit.Proofs.Check.RootsWithinGroups
import RenameAudit.Proofs.Hierarchy.BridgeOrder
import RenameAudit.Proofs.Check.AnyOrder
import RenameAudit.Proofs.Check.Components
import RenameAudit.Proofs.Hierarchy.SharedRoots
import RenameAudit.Proofs.Hierarchy.LaterClasses
import RenameAudit.Proofs.Hierarchy.ResolvingAgain
import RenameAudit.Proofs.Check.SecondAudit
import RenameAudit.Proofs.Descriptor.Texts
import RenameAudit.Proofs.Hierarchy.Renaming
import RenameAudit.Proofs.Hierarchy.RenamedDirectories
import RenameAudit.Proofs.Hierarchy.RenamedResolution
import RenameAudit.Proofs.ClassFile.RoundTrip
import RenameAudit.Proofs.ClassFile.SelfDelimiting
import RenameAudit.Proofs.Rename.WayBack
import RenameAudit.Proofs.Rename.FourFormats
import RenameAudit.Proofs.Rename.ReversedTwice
import RenameAudit.Proofs.Hierarchy.Bookkeeping
import RenameAudit.Proofs.Arena.Represents
import RenameAudit.Proofs.Check.RefusedClasses
import RenameAudit.Proofs.Hierarchy.Walk
import RenameAudit.Proofs.Hierarchy.Satisfied
import RenameAudit.Proofs.Hierarchy.Provenance
import RenameAudit.Proofs.Hierarchy.BridgeRoots
import RenameAudit.Proofs.Graph.BreadthFirst
import RenameAudit.Proofs.Hierarchy.AncestorOrder
import RenameAudit.Proofs.Check.DuplicateNumbers
import RenameAudit.Proofs.Descriptor.Grammar
import RenameAudit.Proofs.Check.IllegalReferences
import RenameAudit.Proofs.Check.PackagesKept
import RenameAudit.Proofs.Rename.NamesBehind
import RenameAudit.Proofs.Check.Shades
import RenameAudit.Proofs.Rename.RenamedTypes
import RenameAudit.Proofs.Hierarchy.ForwardingShape
import RenameAudit.Proofs.ClassFile.Decoding
import RenameAudit.Proofs.ClassFile.RawClass
import RenameAudit.Proofs.ClassFile.UnknownAttributes
import RenameAudit.Proofs.Rename.FirstFault
import RenameAudit.Proofs.Text.Groups
import RenameAudit.Proofs.Sets.Calls
import RenameAudit.Proofs.Archive.Folder
import RenameAudit.Proofs.Naming.Placeholders
