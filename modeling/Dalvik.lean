import Dalvik.Action
import Dalvik.Archive.Directory
import Dalvik.Archive.Entry
import Dalvik.Archive.Package
import Dalvik.Assembly.Access
import Dalvik.Assembly.Model
import Dalvik.Assembly.Parser
import Dalvik.Assembly.Printer
import Dalvik.Assembly.Scanner
import Dalvik.Assembly.Writer
import Dalvik.Bytes
import Dalvik.Cell
import Dalvik.Code.Assembler
import Dalvik.Code.CodeItem
import Dalvik.Code.Disassembly
import Dalvik.Code.Handler
import Dalvik.Code.Instruction
import Dalvik.Code.Label
import Dalvik.Code.Operand
import Dalvik.Code.Payload
import Dalvik.Code.Sequence
import Dalvik.Command.Flags
import Dalvik.Command.Run
import Dalvik.Command.Settings
import Dalvik.Constant.Basic
import Dalvik.Constant.Descriptor
import Dalvik.Constant.Kind
import Dalvik.Constant.Literal
import Dalvik.Constant.Pool
import Dalvik.Constant.Prototype
import Dalvik.Cursor
import Dalvik.Digest
import Dalvik.Export
import Dalvik.Failure
import Dalvik.Failure.Category
import Dalvik.Floating.Format
import Dalvik.Floating.Read
import Dalvik.Floating.Shortest
import Dalvik.Image.Builder
import Dalvik.Image.Event
import Dalvik.Image.File
import Dalvik.Image.Header
import Dalvik.Image.Loader
import Dalvik.Image.Members
import Dalvik.Image.NoteDirectory
import Dalvik.Image.Sample
import Dalvik.Image.StringItem
import Dalvik.Image.Value
import Dalvik.Leb128
import Dalvik.Main
import Dalvik.Opcode.Format
import Dalvik.Opcode.Table
import Dalvik.Report.Assembly
import Dalvik.Report.Basic
import Dalvik.Report.Image
import Dalvik.Report.Command
import Dalvik.Report.Constant
import Dalvik.Report.Storage
import Dalvik.Sink
import Dalvik.Storage.Disk
import Dalvik.Storage.Path
import Dalvik.Table
import Dalvik.Text.Blank
import Dalvik.Text.Escaped
import Dalvik.Text.Mutf8
import Dalvik.Text.Printable
import Dalvik.Text.Quoted
import Dalvik.Text.Utf16
import Dalvik.Text.Utf8
import Dalvik.Proofs.Action
import Dalvik.Proofs.Meter
import Dalvik.Proofs.Block
import Dalvik.Proofs.Sequence.Handles
import Dalvik.Proofs.Sequence.Layout
import Dalvik.Proofs.Sequence.Claim
import Dalvik.Proofs.Instruction
import Dalvik.Proofs.Leb128
import Dalvik.Proofs.Leb128.Canonical
import Dalvik.Proofs.Leb128.Field
import Dalvik.Proofs.Cursor
import Dalvik.Proofs.Cursor.Operations
import Dalvik.Proofs.Path
import Dalvik.Proofs.Disk
import Dalvik.Proofs.Extraction
import Dalvik.Proofs.Cell
import Dalvik.Proofs.Operand
import Dalvik.Proofs.Reading
import Dalvik.Proofs.Table
import Dalvik.Proofs.Table.Sorting
import Dalvik.Proofs.Table.Calls
import Dalvik.Proofs.Payload
import Dalvik.Proofs.Item
import Dalvik.Proofs.Legible
import Dalvik.Proofs.Sequence.Search
import Dalvik.Proofs.Sequence.Evolution
import Dalvik.Proofs.Sequence.Ownership
import Dalvik.Proofs.Sequence.Invariant
import Dalvik.Proofs.Sequence.Assembling
import Dalvik.Proofs.Sequence.Encoding
import Dalvik.Proofs.Sequence.Refreshing
import Dalvik.Proofs.Sequence.Linking
import Dalvik.Proofs.Sequence.Scanning
import Dalvik.Proofs.Sequence.Decoding
import Dalvik.Proofs.Sequence.Reach
import Dalvik.Proofs.Sequence.Settling
import Dalvik.Proofs.Sequence.Consistent
import Dalvik.Proofs.Sequence.Snug
import Dalvik.Proofs.Sequence.Order
import Dalvik.Proofs.Sequence.Steady
import Dalvik.Proofs.Sequence.Matched
import Dalvik.Proofs.Sequence.Exact
import Dalvik.Proofs.Sequence.Linkable
import Dalvik.Proofs.Sequence.Current
import Dalvik.Proofs.Sequence.Charts
import Dalvik.Proofs.Sequence.Storing
import Dalvik.Proofs.Handler
import Dalvik.Proofs.CodeItem.Decoding
import Dalvik.Proofs.CodeItem.Current
import Dalvik.Proofs.CodeItem.Exact
import Dalvik.Proofs.CodeItem.Refreshing
import Dalvik.Proofs.Sequence.Forwarding
import Dalvik.Proofs.Sequence.Removal
import Dalvik.Proofs.Sequence.Lasting
import Dalvik.Proofs.CodeItem.Removal
import Dalvik.Proofs.CodeItem.Storing
import Dalvik.Proofs.Faults
import Dalvik.Proofs.Prototype
import Dalvik.Proofs.Pool
import Dalvik.Proofs.Image.Code
import Dalvik.Proofs.Image.Parts
import Dalvik.Proofs.Image.Loading
import Dalvik.Proofs.Image.Value
import Dalvik.Proofs.Image.Shortest
import Dalvik.Proofs.Image.Encoded
import Dalvik.Proofs.Image.Members
import Dalvik.Proofs.Image.ClassContents
import Dalvik.Proofs.Sequence.Issued
import Dalvik.Proofs.CodeItem.Resting
import Dalvik.Proofs.Image.Indices
import Dalvik.Proofs.Sequence.Labels
import Dalvik.Proofs.Operands
import Dalvik.Proofs.Independence
import Dalvik.Proofs.Carrying
import Dalvik.Proofs.Elements
import Dalvik.Proofs.Sequence.Filled
import Dalvik.Proofs.Sequence.Places
import Dalvik.Proofs.Sequence.Tables
import Dalvik.Proofs.Sequence.Telling
import Dalvik.Proofs.Sequence.Retelling
import Dalvik.Proofs.CodeItem.Telling
import Dalvik.Proofs.CodeItem.Assembling
import Dalvik.Proofs.CodeItem.Retelling
import Dalvik.Proofs.Assembly.Scanner
import Dalvik.Proofs.Assembly.Body
import Dalvik.Proofs.Sequence.Passes
import Dalvik.Proofs.Sequence.Presence
import Dalvik.Proofs.Payload.Editing
import Dalvik.Proofs.Payload.Conversion
import Dalvik.Proofs.Sequence.Readdressing
import Dalvik.Proofs.Sequence.Converting
import Dalvik.Proofs.CodeItem.Attempts
import Dalvik.Proofs.CodeItem.Landing
import Dalvik.Proofs.Sequence.Declaring
import Dalvik.Proofs.Sequence.Labelling
import Dalvik.Proofs.Sequence.Placing
import Dalvik.Proofs.Sequence.Landmarks
import Dalvik.Proofs.CodeItem.Fields
import Dalvik.Proofs.CodeItem.Ranges
import Dalvik.Proofs.Image.Strings
import Dalvik.Proofs.Literal
import Dalvik.Proofs.Bytes
import Dalvik.Proofs.Constant.TypeName
import Dalvik.Proofs.Constant.Reference
import Dalvik.Proofs.Constant.Order
import Dalvik.Proofs.Constant.ClassName
import Dalvik.Proofs.Constant.InnerFirst
import Dalvik.Proofs.Constant.Nesting
import Dalvik.Proofs.Constant.Package
import Dalvik.Proofs.Image.Notes
import Dalvik.Proofs.Image.Detaching
import Dalvik.Proofs.Constant.Refusal
import Dalvik.Proofs.Assembly.Place
import Dalvik.Proofs.Assembly.Origin
import Dalvik.Proofs.Assembly.Telling
import Dalvik.Proofs.Assembly.Located
import Dalvik.Proofs.Assembly.Writer
import Dalvik.Proofs.Assembly.Method
import Dalvik.Proofs.CodeItem.Printing
import Dalvik.Proofs.Payload.Contents
