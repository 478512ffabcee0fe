import JvmClass.CountedTable
import JvmClass.Flags

/-!
# Module declarations

What a module requires, exports, opens, uses and provides.
-/

namespace JvmClass

/-- A module that is required, by name, with the version that was seen, or nothing. -/
structure Requires where
  module : Ref .module
  flags : Flags .requires
  version : Ref .utf8

/-- A package that is exported or opened, to some modules or, if none is listed, to all. -/
structure Exports where
  package : Ref .package
  flags : Flags .exports
  targets : List (Ref .module)

/-- A service and the classes that implement it. -/
structure Provides where
  service : Ref .class
  implementations : List (Ref .class)

structure ModuleInfo where
  name : Ref .module
  flags : Flags .module
  version : Ref .utf8
  requires : List Requires
  exports : List Exports
  opens : List Exports
  uses : List (Ref .class)
  provides : List Provides

def Requires.encode (r : Requires) : List UInt8 :=
  r.module.encode ++ r.flags.encode ++ r.version.encode

/-- The bytes of an entry of the table with the given name. -/
def Exports.encode (table : String) (e : Exports) : Except Error (List UInt8) := do
  return e.package.encode ++ e.flags.encode
    ++ (← CountedTable.ofList table .two Ref.encode e.targets)

def Provides.encode (p : Provides) : Except Error (List UInt8) := do
  return p.service.encode ++
    (← CountedTable.ofList "provides_with" .two Ref.encode p.implementations)

def ModuleInfo.encode (m : ModuleInfo) : Except Error (List UInt8) := do
  let requires ← CountedTable.ofList "requires" .two Requires.encode m.requires
  let exports ← CountedTable.ofEntries "exports" .two (m.exports.map (·.encode "exports"))
  let opens ← CountedTable.ofEntries "opens" .two (m.opens.map (·.encode "opens"))
  let uses ← CountedTable.ofList "uses" .two Ref.encode m.uses
  let provides ← CountedTable.ofEntries "provides" .two (m.provides.map (·.encode))
  return m.name.encode ++ m.flags.encode ++ m.version.encode
    ++ requires ++ exports ++ opens ++ uses ++ provides

end JvmClass
