import JvmClass.Attribute.Annotations
import JvmClass.Attribute.ModuleInfo
import JvmClass.Attribute.StackMap
import JvmClass.Code.Exceptions

/-!
# Attributes

An attribute of a class, a member, a record component or the code of a method is a name and some
bytes.  An `Attribute` is one of the predefined kinds, with everything that it refers to already in
the pool.  The attributes that hold attributes themselves, the code of a method and the components
of a record, are written by `AttributeWriter`.
-/

namespace JvmClass

/-- A parameter of a method. -/
structure MethodParameter where
  name : Ref .utf8
  flags : Flags .methodParameter

def MethodParameter.encode (p : MethodParameter) : List UInt8 := p.name.encode ++ p.flags.encode

/-- The line of the source that the code from a position on belongs to. -/
structure LineNumber where
  start : UInt16
  line : UInt16
  deriving DecidableEq, Repr

def LineNumber.encode (l : LineNumber) : List UInt8 := BigEndian.u2 l.start ++ BigEndian.u2 l.line

/-- A local variable in a range of the code; `type` is its descriptor or its generic signature. -/
structure LocalVariable where
  start : UInt16
  length : UInt16
  name : Ref .utf8
  type : Ref .utf8
  index : UInt16
  deriving DecidableEq, Repr

def LocalVariable.encode (v : LocalVariable) : List UInt8 :=
  BigEndian.u2 v.start ++ BigEndian.u2 v.length ++ v.name.encode ++ v.type.encode
    ++ BigEndian.u2 v.index

/-- A class that is a member of another or local to it. -/
structure InnerClass where
  inner : Ref .class
  outer : Ref .class
  name : Ref .utf8
  flags : Flags .innerClass

def InnerClass.encode (c : InnerClass) : List UInt8 :=
  c.inner.encode ++ c.outer.encode ++ c.name.encode ++ c.flags.encode

/-- A bootstrap method and the constants that it gets. -/
structure BootstrapMethod where
  method : Ref .methodHandle
  arguments : List Slot

def BootstrapMethod.encode (m : BootstrapMethod) : Except Error (List UInt8) := do
  return m.method.encode ++
    (← CountedTable.ofList "bootstrap_arguments" .two BigEndian.u2 m.arguments)

/-- Whether annotations are kept for the running program to see. -/
inductive Retention
  | visible | invisible
  deriving DecidableEq, Repr

def Retention.name : Retention → String
  | visible => "RuntimeVisible"
  | invisible => "RuntimeInvisible"

/-- A predefined attribute without attributes of its own. -/
inductive Attribute
  | synthetic
  | deprecated
  | signature (signature : Ref .utf8)
  | sourceFile (name : Ref .utf8)
  | sourceDebugExtension (text : String)
  | constantValue (value : Slot)
  | exceptions (classes : List (Ref .class))
  | nestHost (host : Ref .class)
  | nestMembers (classes : List (Ref .class))
  | permittedSubclasses (classes : List (Ref .class))
  | modulePackages (packages : List (Ref .package))
  | moduleMainClass (main : Ref .class)
  | enclosingMethod (owner : Ref .class) (method : Ref .nameAndType)
  | methodParameters (parameters : List MethodParameter)
  | lineNumberTable (lines : List LineNumber)
  | localVariableTable (locals : List LocalVariable)
  | localVariableTypeTable (locals : List LocalVariable)
  | stackMapTable (frames : List StackMapFrame)
  | innerClasses (classes : List InnerClass)
  | bootstrapMethods (methods : List BootstrapMethod)
  | moduleInfo (info : ModuleInfo)
  | annotations (retention : Retention) (entries : List AnnotationEntry)
  | parameterAnnotations (retention : Retention) (parameters : List (List AnnotationEntry))
  | typeAnnotations (retention : Retention) (entries : List TypeAnnotationEntry)
  | annotationDefault (value : ElementValue)

namespace Attribute

def name : Attribute → String
  | synthetic => "Synthetic"
  | deprecated => "Deprecated"
  | signature _ => "Signature"
  | sourceFile _ => "SourceFile"
  | sourceDebugExtension _ => "SourceDebugExtension"
  | constantValue _ => "ConstantValue"
  | exceptions _ => "Exceptions"
  | nestHost _ => "NestHost"
  | nestMembers _ => "NestMembers"
  | permittedSubclasses _ => "PermittedSubclasses"
  | modulePackages _ => "ModulePackages"
  | moduleMainClass _ => "ModuleMainClass"
  | enclosingMethod _ _ => "EnclosingMethod"
  | methodParameters _ => "MethodParameters"
  | lineNumberTable _ => "LineNumberTable"
  | localVariableTable _ => "LocalVariableTable"
  | localVariableTypeTable _ => "LocalVariableTypeTable"
  | stackMapTable _ => "StackMapTable"
  | innerClasses _ => "InnerClasses"
  | bootstrapMethods _ => "BootstrapMethods"
  | moduleInfo _ => "Module"
  | annotations retention _ => retention.name ++ "Annotations"
  | parameterAnnotations retention _ => retention.name ++ "ParameterAnnotations"
  | typeAnnotations retention _ => retention.name ++ "TypeAnnotations"
  | annotationDefault _ => "AnnotationDefault"

/-- The bytes of an attribute in a class file of the given version, after its name and length.  Its
outermost table goes by the name of the attribute. -/
def encode (version : Version) (a : Attribute) : Except Error (List UInt8) :=
  match a with
  | synthetic | deprecated => return []
  | signature text | sourceFile text => return text.encode
  | sourceDebugExtension text => return ModifiedUtf8.encode version text
  | constantValue value => return BigEndian.u2 value
  | exceptions classes | nestMembers classes | permittedSubclasses classes =>
    CountedTable.ofList a.name .two Ref.encode classes
  | nestHost type | moduleMainClass type => return type.encode
  | modulePackages packages => CountedTable.ofList a.name .two Ref.encode packages
  | enclosingMethod owner method => return owner.encode ++ method.encode
  | methodParameters parameters =>
    CountedTable.ofList a.name .one MethodParameter.encode parameters
  | lineNumberTable lines => CountedTable.ofList a.name .two LineNumber.encode lines
  | localVariableTable locals | localVariableTypeTable locals =>
    CountedTable.ofList a.name .two LocalVariable.encode locals
  | stackMapTable frames =>
    CountedTable.ofEntries a.name .two (frames.map StackMapFrame.encode)
  | innerClasses classes => CountedTable.ofList a.name .two InnerClass.encode classes
  | bootstrapMethods methods =>
    CountedTable.ofEntries a.name .two (methods.map BootstrapMethod.encode)
  | moduleInfo info => info.encode
  | annotations _ entries =>
    CountedTable.ofEntries a.name .two (entries.map AnnotationEntry.encode)
  | parameterAnnotations _ parameters =>
    CountedTable.ofEntries a.name .one <| parameters.map fun entries =>
      CountedTable.ofEntries "annotations" .two (entries.map AnnotationEntry.encode)
  | typeAnnotations _ entries =>
    CountedTable.ofEntries a.name .two (entries.map TypeAnnotationEntry.encode)
  | annotationDefault value => value.encode

end Attribute

end JvmClass
