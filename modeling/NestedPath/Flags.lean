/-!
Flag words, one type for each thing that flags are given to.
-/

namespace NestedPath

inductive FlagOwner where
  | select | modify | regex | evalRead | evalWrite
  deriving DecidableEq

structure Flags (owner : FlagOwner) where
  bits : UInt32
  deriving DecidableEq

namespace Flags

variable {owner : FlagOwner}

/-- Unknown bits are kept. -/
def ofBits (bits : UInt32) : Flags owner := ⟨bits⟩

def none : Flags owner := ⟨0⟩

instance : OrOp (Flags owner) := ⟨fun a b => ⟨a.bits ||| b.bits⟩⟩

/-- Every flag of `b` is set in `a`. -/
def contains (a b : Flags owner) : Bool := a.bits &&& b.bits == b.bits

end Flags

/-- The bit that tells a modification from a selection. Callers do not choose it. -/
def applyBit : UInt32 := 0x04

namespace SelectFlags

/-- The structure of the data around what is selected. -/
def matchingTree : Flags .select := ⟨0⟩

def value : Flags .select := ⟨1⟩

/-- The selected values, where a list is expected. -/
def listValue : Flags .select := value

/-- The selected values, where values of a map are expected. -/
def mapValue : Flags .select := value

def mapKey : Flags .select := ⟨2⟩

def mapKeyValue : Flags .select := ⟨3⟩

/-- Elements on which the path or a filter fails are passed over. -/
def noFail : Flags .select := ⟨0x10⟩

end SelectFlags

def Flags.selectWord (flags : Flags .select) : UInt32 := flags.bits &&& ~~~applyBit

namespace ModifyFlags

/-- The operation fails where the path does. -/
def standard : Flags .modify := ⟨0⟩

/-- Elements on which the path or a filter fails are passed over. -/
def noFail : Flags .modify := ⟨0x10⟩

end ModifyFlags

def Flags.modifyWord (flags : Flags .modify) : UInt32 := flags.bits ||| applyBit

namespace RegexFlags

def extended : Flags .regex := ⟨1⟩

def ignoreCase : Flags .regex := ⟨2⟩

/-- The place of a match is not reported. -/
def noSub : Flags .regex := ⟨4⟩

/-- What matches any character does not match a line break. -/
def newline : Flags .regex := ⟨8⟩

end RegexFlags

namespace EvalFlags

/-- A result that is unknown is no failure of a read. -/
def readNoFail : Flags .evalRead := ⟨0x10⟩

/-- The bin must not exist. -/
def createOnly : Flags .evalWrite := ⟨1⟩

/-- The bin must exist. -/
def updateOnly : Flags .evalWrite := ⟨2⟩

/-- The bin is deleted if the result is nil. -/
def allowDelete : Flags .evalWrite := ⟨4⟩

/-- A write that the other flags forbid is no failure. -/
def policyNoFail : Flags .evalWrite := ⟨8⟩

/-- A result that is unknown is no failure of a write. -/
def writeNoFail : Flags .evalWrite := ⟨0x10⟩

end EvalFlags

end NestedPath
