import NestedPaging.Word

/-!
# Registers, faults and errors of remapping units

Byte offsets of the registers, and the bits of the global command and fault status registers.
Fault records and the IOTLB registers lie where the capability registers say. A unit records a
blocked access in a pair of words: the page address below, and above it the requester in bits 15:0,
the reason in bits 39:32, the kind of access in bit 62 and validity in bit 63.
-/

/-! ## registers -/

namespace NestedPaging.Register

def version : Nat := 0x000
def capability : Nat := 0x008
def extended : Nat := 0x010
def globalCommand : Nat := 0x018
def globalStatus : Nat := 0x01c
def rootTable : Nat := 0x020
def contextCommand : Nat := 0x028
def faultStatus : Nat := 0x034
def faultControl : Nat := 0x038
def faultData : Nat := 0x03c
def faultAddress : Nat := 0x040
def queueHead : Nat := 0x080
def queueTail : Nat := 0x088
def queueAddress : Nat := 0x090
def interruptTable : Nat := 0x0b8

/-- the IOTLB command register inside its block -/
def iotlbCommand : Nat := 0x008

end NestedPaging.Register

namespace NestedPaging.Command

def setInterruptTable : UInt32 := 0x01000000
def interruptRemapping : UInt32 := 0x02000000
def queuedInvalidation : UInt32 := 0x04000000
def writeBufferFlush : UInt32 := 0x08000000
def setFaultLog : UInt32 := 0x20000000
def setRootTable : UInt32 := 0x40000000
def dmaRemapping : UInt32 := 0x80000000

/-- commands that act when written with a one; their status bits stay set and must not be written
back -/
def oneShot : UInt32 := setRootTable ||| setFaultLog ||| writeBufferFlush ||| setInterruptTable

/-- commands that hold a state, on or off -/
def persistent : UInt32 := 0xff800000 &&& ~~~oneShot

/-- the single bits of a command word, lowest first -/
def bits (w : UInt32) : List UInt32 :=
  ((List.range 32).map fun i => (1 : UInt32) <<< i.toUInt32).filter fun b => w &&& b != 0

end NestedPaging.Command

namespace NestedPaging.FaultStatus

/-- some fault record is pending -/
def pending : UInt32 := 2

/-- the bits that report events -/
def events : UInt32 := 0xff

end NestedPaging.FaultStatus

namespace NestedPaging.FaultControl

/-- fault interrupts are masked -/
def masked : UInt32 := 0x80000000

end NestedPaging.FaultControl

namespace NestedPaging

/-! ## faults -/

/-- the interrupt message a unit sends when it records a fault -/
structure FaultEvent where
  data : UInt32
  address : UInt32
  deriving DecidableEq

structure FaultRecord where
  /-- the requester that was blocked -/
  source : UInt16
  /-- the reason code of the architecture -/
  reason : UInt8
  isRead : Bool
  /-- the page it asked for -/
  address : Word
  deriving DecidableEq

namespace FaultRecord

def decode? (lo hi : Word) : Option FaultRecord :=
  if hi.bit 63 then
    some ⟨hi.toUInt16, (hi >>> 32).toUInt8, hi.bit 62, lo &&& ~~~0xfff⟩
  else none

/-- the upper word of a valid record -/
def upper (source : UInt16) (reason : UInt8) (isRead : Bool) : Word :=
  Word.single 63 ||| Word.flag isRead 62 ||| (reason.toUInt64 <<< 32) ||| source.toUInt64

/-- bus, device and function of the requester, then the access -/
def text (r : FaultRecord) : String :=
  let source := r.source.toNat
  hexByte (source / 256) ++ ":" ++ hexByte (source % 256 / 8) ++ "." ++ toString (source % 8)
    ++ (if r.isRead then " read " else " write ") ++ hex r.address.toNat
    ++ " reason " ++ hex r.reason.toNat

end FaultRecord

/-! ## errors -/

/-- what remapping units refuse -/
inductive RemapError where
  /-- no page for a context table, the interrupt table or a queue -/
  | insufficientMemory
  /-- the platform tracks no more units -/
  | tooManyUnits
  /-- no unit has its registers there -/
  | unitNotFound (base : Word)
  /-- the unit walks no tables with so many levels -/
  | unsupportedAddressWidth (levels : Nat)
  /-- requester identifiers have 16 bits -/
  | invalidRequester (rid : Nat)
  /-- no room in the invalidation queue -/
  | queueFull
  /-- the unit reports a queue head outside the outstanding descriptors -/
  | invalidQueuePointer (head : Nat)
  /-- the unit lacks four-level tables -/
  | missingLevels
  deriving DecidableEq

namespace RemapError

def kind : RemapError → String
  | insufficientMemory => "InsufficientMemory"
  | tooManyUnits => "TooManyUnits"
  | unitNotFound _ => "UnitNotFound"
  | unsupportedAddressWidth _ => "UnsupportedAddressWidth"
  | invalidRequester _ => "InvalidRequesterId"
  | queueFull => "QueueFull"
  | invalidQueuePointer _ => "InvalidQueuePointer"
  | missingLevels => "MissingTranslationSupport"

/-- the kind, then the offending number if there is one -/
def message (e : RemapError) : String :=
  match e with
  | unitNotFound base => e.kind ++ "(" ++ toString base.toNat ++ ")"
  | unsupportedAddressWidth n | invalidRequester n | invalidQueuePointer n =>
    e.kind ++ "(" ++ toString n ++ ")"
  | _ => e.kind

end RemapError

end NestedPaging
