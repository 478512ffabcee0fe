import JvmClass.CountedTable

/-!
# Exception tables

A handler catches exceptions of one class, or of any, that are thrown in a range of the code.  The
virtual machine takes the first entry of the table that fits.
-/

namespace JvmClass

/-- An entry of an exception table: the range from `start` up to but not including `stop`, the
position of the handler, and the class that it catches, or nothing to catch all. -/
structure ExceptionHandler where
  start : UInt16
  stop : UInt16
  handler : UInt16
  catchType : Ref .class
  deriving DecidableEq, Repr, Inhabited

def ExceptionHandler.encode (h : ExceptionHandler) : List UInt8 :=
  BigEndian.u2 h.start ++ BigEndian.u2 h.stop
    ++ BigEndian.u2 h.handler ++ BigEndian.u2 h.catchType.slot

/-- The bytes of an exception table. -/
def encodeExceptionTable (handlers : List ExceptionHandler) : Except Error (List UInt8) :=
  if 65535 < handlers.length then
    .error (.tableOverflow "exception_table" 65535)
  else
    encodeSequence ExceptionHandler.encode handlers

end JvmClass
