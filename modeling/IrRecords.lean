import IrRecords.Main
import IrRecords.Proofs.Command.Files
import IrRecords.Proofs.Extract.Agreement
import IrRecords.Proofs.Extract.Definitions
import IrRecords.Proofs.Function.Typed
import IrRecords.Proofs.Listing.Inversion
import IrRecords.Proofs.Module.Numbering
import IrRecords.Proofs.Module.Spacing
import IrRecords.Proofs.Module.Statements
import IrRecords.Proofs.Pass.History
import IrRecords.Proofs.Pass.Truncation
import IrRecords.Proofs.Record.References
import IrRecords.Proofs.Record.Stream
import IrRecords.Proofs.Reader.Among
import IrRecords.Proofs.Ty.BareFree
import IrRecords.Proofs.Draft.BareFree
import IrRecords.Proofs.Module.BareFree
import IrRecords.Proofs.Token.Labels
import IrRecords.Proofs.Module.Labels
import IrRecords.Proofs.Draft.Borders
import IrRecords.Proofs.Function.Borders
import IrRecords.Proofs.Module.Composition
import IrRecords.Proofs.Module.Order
import IrRecords.Proofs.Record.Contents
import IrRecords.Proofs.Ty.Naming
import IrRecords.Proofs.Reader.Settling
import IrRecords.Proofs.Ty.Settling
import IrRecords.Proofs.Draft.Settling
import IrRecords.Proofs.Function.Settling
import IrRecords.Proofs.Module.Settling
import IrRecords.Proofs.Module.Loops
import IrRecords.Proofs.Ty.Inversion
import IrRecords.Proofs.Draft.BlockOrder
import IrRecords.Proofs.Function.Blocks
import IrRecords.Proofs.Module.Definitions
import IrRecords.Proofs.Module.BlockOrder
import IrRecords.Proofs.Token.Places
import IrRecords.Proofs.Token.Names
import IrRecords.Proofs.Record.Faithful
import IrRecords.Proofs.Module.Renderings
import IrRecords.Proofs.Record.Fields
import IrRecords.Proofs.Module.Segments
import IrRecords.Proofs.Module.Addresses
import IrRecords.Proofs.Reader.Seams
import IrRecords.Proofs.Draft.Flags
import IrRecords.Proofs.Draft.Seams
import IrRecords.Proofs.Function.Seams
import IrRecords.Proofs.Function.Splices
import IrRecords.Proofs.Module.Seams
import IrRecords.Proofs.Module.Splices
import IrRecords.Proofs.Module.Shapes
import IrRecords.Proofs.Ty.Unfolding
import IrRecords.Proofs.Record.Dangling
import IrRecords.Proofs.Text.Escapes
import IrRecords.Proofs.Token.Openings
import IrRecords.Proofs.Module.Discarded
import IrRecords.Proofs.Token.Joins
import IrRecords.Proofs.Reader.Groups
