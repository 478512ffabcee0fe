import JvmClass.Action
import JvmClass.Byte.BigEndian
import JvmClass.Byte.Buffer
import JvmClass.Text.Unprintable
import JvmClass.Text.Quoted
import JvmClass.Text.ModifiedUtf8
import JvmClass.Version
import JvmClass.Flags
import JvmClass.Constant.Tag
import JvmClass.Constant.Record
import JvmClass.Error
import JvmClass.CountedTable
import JvmClass.Pool.Basic
import JvmClass.Pool.Intern
import JvmClass.Pool.View
import JvmClass.Code.Opcode
import JvmClass.Code.Instruction
import JvmClass.Code.Exceptions
import JvmClass.Code.Assembler
import JvmClass.Code.Switch
import JvmClass.Code.Listing
import JvmClass.Attribute.StackMap
import JvmClass.Attribute.Annotations
import JvmClass.Attribute.ModuleInfo
import JvmClass.Attribute.Basic
import JvmClass.Attribute.Writer
import JvmClass.ClassFile
import JvmClass.Remap.Input
import JvmClass.Remap.StackMap
import JvmClass.Remap.Annotations
import JvmClass.Remap.Code
import JvmClass.FileTree
import JvmClass.Command
import JvmClass.Main
import JvmClass.Proofs.Action
import JvmClass.Proofs.Pool.Growth
import JvmClass.Proofs.Byte.Buffer
import JvmClass.Proofs.Byte.FlatView
import JvmClass.Proofs.Code.Layout
import JvmClass.Proofs.Code.Run
import JvmClass.Proofs.Byte.BigEndian
import JvmClass.Proofs.Code.Realization
import JvmClass.Proofs.Code.Jumps
import JvmClass.Proofs.Code.Refusals
import JvmClass.Proofs.Code.Size
import JvmClass.Proofs.Code.Bounds
import JvmClass.Proofs.Pool.Meaning
import JvmClass.Proofs.Pool.Sharing
import JvmClass.Proofs.Byte.Reader
import JvmClass.Proofs.Code.Walk
import JvmClass.Proofs.Code.Boundaries
import JvmClass.Proofs.Attribute.Growth
import JvmClass.Proofs.Remap.Growth
import JvmClass.Proofs.Remap.Code
import JvmClass.Proofs.Remap.Effect
import JvmClass.Proofs.Remap.Nested
import JvmClass.Proofs.Remap.StackMap
import JvmClass.Proofs.Remap.Annotations
import JvmClass.Proofs.CountedTable
import JvmClass.Proofs.Text.ModifiedUtf8
import JvmClass.Proofs.Pool.Reading
import JvmClass.Proofs.Pool.Decoding
import JvmClass.Proofs.Pool.Upgrade
import JvmClass.Proofs.Pool.Soundness
import JvmClass.Proofs.Pool.Handles
import JvmClass.Proofs.Pool.Integrity
import JvmClass.Proofs.Pool.Available
import JvmClass.Proofs.Pool.Distinct
import JvmClass.Proofs.Attribute.Callback
import JvmClass.Proofs.Attribute.Tables
import JvmClass.Proofs.Attribute.Nested
import JvmClass.Proofs.Attribute.AllOrNothing
import JvmClass.Proofs.ClassFile.Building
import JvmClass.Proofs.ClassFile.Finish
import JvmClass.Proofs.Remap.Composition
import JvmClass.Proofs.Remap.Repetition
import JvmClass.Proofs.Remap.PrefixFree
import JvmClass.Proofs.Checked
import JvmClass.Proofs.Remap.Scanner
import JvmClass.Proofs.Remap.Termination
import JvmClass.Proofs.Pool.Faults
import JvmClass.Proofs.Remap.Rewriting
import JvmClass.Proofs.Remap.Acceptance
import JvmClass.Proofs.Text.Utf16
import JvmClass.Proofs.Code.TableLayout
import JvmClass.Proofs.Remap.Imports
import JvmClass.Proofs.Remap.Verbatim
import JvmClass.Proofs.Remap.Frames
import JvmClass.Proofs.Code.LookupLayout
import JvmClass.Proofs.Code.LeftBehind
import JvmClass.Proofs.Code.Disassembly
import JvmClass.Proofs.Code.Nesting
import JvmClass.Proofs.Code.Onward
import JvmClass.Proofs.Code.ExceptionTable
import JvmClass.Proofs.Code.Range
import JvmClass.Proofs.Pool.Refused
import JvmClass.Proofs.Remap.FrameRoundTrip
import JvmClass.Proofs.WritingOrder
import JvmClass.Proofs.Attribute.ModuleInfo
import JvmClass.Proofs.Attribute.Annotations
import JvmClass.Proofs.Remap.Copies
import JvmClass.Proofs.Remap.AnnotationRoundTrip
