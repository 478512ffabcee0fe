import JvmClass.ClassFile
import JvmClass.Code.Switch
import JvmClass.FileTree

/-!
# The command line

The command assembles a class whose `main` method prints a message.  `Request.ofArgs` reads the
arguments, `greeter` builds the class, and `Options.save?` says what writing it does to a directory.
-/

namespace JvmClass.Command

/-- What the command is to do. -/
structure Options where
  outputClass : String
  message : String
  majorVersion : UInt16
  deriving DecidableEq, Repr

/-- What the arguments ask for. -/
inductive Request
  | assemble (options : Options)
  /-- Help, or the version of the command. -/
  | information
  /-- The arguments make no sense. -/
  | wrongUsage
  deriving DecidableEq, Repr

/-- An option of the command line, which takes a value. -/
inductive Flag
  | outputClass | message | majorVersion
  deriving DecidableEq, Repr

namespace Flag

def all : List Flag := [.outputClass, .message, .majorVersion]

def name : Flag → String
  | outputClass => "output-class"
  | message => "message"
  | majorVersion => "major-version"

/-- The value of an option that is not given, or given without a value. -/
def default? : Flag → Option String
  | outputClass => none
  | message => some "Hello, world!"
  | majorVersion => some "52"

def ofName? (name : String) : Option Flag := all.find? (·.name == name)

end Flag

/-- An option as it was given, with its value if it has one. -/
structure Given where
  flag : Flag
  value : Option String

/-- The arguments, read so far as they make sense one by one. -/
inductive Scan
  | given (options : List Given)
  | information
  | wrongUsage

/-- What a long option says: its name without the leading dashes, and the text behind the first
equals signs. -/
def splitLong (arg : String) : String × Option String :=
  let body := arg.toList.dropWhile (· == '-')
  let name := body.takeWhile (· != '=')
  match body.dropWhile (· != '=') with
  | [] => (String.ofList name, none)
  | value => (String.ofList name, some (String.ofList (value.dropWhile (· == '='))))

/-- Read the arguments in order.  `waiting` is the option that the next argument may be the value
of, and `seen` are the options before that. -/
def scan (waiting : Option Flag) (seen : List Given) : List String → Scan
  | [] => .given (waiting.toList.map (⟨·, none⟩) ++ seen)
  | arg :: rest =>
    let before := waiting.toList.map (⟨·, none⟩) ++ seen
    if arg = "--" then
      -- What follows can only be positional, and nothing positional is wanted.
      if rest.isEmpty then .given before else .wrongUsage
    else if arg.startsWith "--" then
      match splitLong arg with
      | (name, value) =>
        match Flag.ofName? name, value with
        | some flag, none => scan (some flag) before rest
        | some flag, some value => scan none (⟨flag, some value⟩ :: before) rest
        | none, _ => if name = "help" ∨ name = "version" then .information else .wrongUsage
    else if arg.startsWith "-" ∧ arg ≠ "-" then
      -- No value starts with a dash, not even a negative number.
      if arg.startsWith "-h" ∨ arg.startsWith "-V" then .information else .wrongUsage
    else
      match waiting with
      | some flag => scan none (⟨flag, some arg⟩ :: seen) rest
      | none => .wrongUsage

/-- The value of an option that may be given once. -/
def valueOf? (given : List Given) (flag : Flag) : Option String :=
  match given.filter (·.flag = flag) with
  | [] => flag.default?
  | [g] => g.value <|> flag.default?
  | _ => none

/-- A decimal number of 16 bits; a plus sign may stand before it. -/
def parseNumber? (text : String) : Option UInt16 :=
  let digits := match text.toList with
    | '+' :: rest => rest
    | cs => cs
  if digits.isEmpty ∨ ¬ digits.all Char.isDigit then
    none
  else
    let n := digits.foldl (fun n d => n * 10 + (d.toNat - '0'.toNat)) 0
    if n ≤ 65535 then some (UInt16.ofNat n) else none

def Options.ofGiven? (given : List Given) : Option Options := do
  let outputClass ← valueOf? given .outputClass
  let message ← valueOf? given .message
  let majorVersion ← parseNumber? (← valueOf? given .majorVersion)
  return { outputClass, message, majorVersion }

def Request.ofArgs (args : List String) : Request :=
  match scan none [] args with
  | .information => .information
  | .wrongUsage => .wrongUsage
  | .given options =>
    match Options.ofGiven? options with
    | some options => .assemble options
    | none => .wrongUsage

open AttributeWriter (onPool addCode add)

/-- The constructor, which calls that of the superclass. -/
def constructor : Action Error AttributeWriter Unit := do
  let parent ← onPool (Pool.internMember .shared .method ⟨"java/lang/Object", "<init>", "()V"⟩)
  let body ← Action.ofExcept <| Assembler.assemble do
    Assembler.emit (.localVar .aload 0)
    Assembler.emit (.constant .invokeSpecial parent.slot (some .methodRef))
    Assembler.emit (.plain .voidReturn)
  addCode 1 1 body (pure ())

/-- The method that prints a message. -/
def printer (message : String) : Action Error AttributeWriter Unit := do
  let out ← onPool
    (Pool.internMember .shared .field ⟨"java/lang/System", "out", "Ljava/io/PrintStream;"⟩)
  let println ← onPool
    (Pool.internMember .shared .method ⟨"java/io/PrintStream", "println", "(Ljava/lang/String;)V"⟩)
  let text ← onPool (Pool.internNamed .shared .string message)
  let body ← Action.ofExcept <| Assembler.assemble do
    Assembler.emit (.constant .getStatic out.slot (some .fieldRef))
    Assembler.emit (.load text.slot .string)
    Assembler.emit (.constant .invokeVirtual println.slot (some .methodRef))
    Assembler.emit (.plain .voidReturn)
  addCode 2 1 body (add (.lineNumberTable [⟨0, 1⟩]))

/-- The last part of a binary class name. -/
def simpleName (name : String) : String :=
  String.ofList (name.toList.reverse.takeWhile (· != '/')).reverse

/-- Build the methods and attributes of the class that prints a message. -/
def addContents (options : Options) : Action Error ClassBuilder Unit := do
  ClassBuilder.addMethod (Flags.ofBits .method 0x0001) "<init>" "()V" constructor
  ClassBuilder.addMethod (Flags.ofBits .method 0x0009) "main" "([Ljava/lang/String;)V"
    (printer options.message)
  ClassBuilder.addAttributes
    (AttributeWriter.addSourceFile (simpleName options.outputClass ++ ".java"))

/-- The class file of a class that prints a message. -/
def greeter (options : Options) : Except Error (List UInt8) := do
  let c ← ClassBuilder.start ⟨options.majorVersion, 0⟩ (Flags.ofBits .class 0x0021)
    options.outputClass (some "java/lang/Object")
  match (addContents options).exec c with
  | (.ok (), c) => c.finish
  | (.error e, _) => throw e

/-- Where the class file goes. -/
def Options.outputPath (options : Options) : String := options.outputClass ++ ".class"

/-- What a directory holds after the class file is written there, if it can be. -/
def Options.save? (options : Options) (tree : FileTree) (contents : List UInt8) :
    Option FileTree :=
  tree.write? options.outputPath contents

end JvmClass.Command
