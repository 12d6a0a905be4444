import TradingPipeline.Foundation.LittleEndian

/-! The messages of `message.rs` and their `repr(C)` layout on a little-endian machine. -/

set_option autoImplicit false

namespace TradingPipeline.Shmbus

open Foundation

/-- `SYMBOL_LEN`. -/
abbrev symbolLen : Nat := 8

abbrev Symbol := Vector UInt8 symbolLen

inductive Side where
  | buy
  | sell
  deriving DecidableEq, Repr

/-- `side as u8`. -/
def Side.toU8 : Side → UInt8
  | .buy => 1
  | .sell => 2

structure MarketTick where
  seqNum : UInt64
  exchTsNs : UInt64
  recvTsNs : UInt64
  symbol : Symbol
  bidPx : Int64
  askPx : Int64
  bidSz : UInt32
  askSz : UInt32
  pad : UInt32
  deriving DecidableEq

structure OrderMsg where
  orderId : UInt64
  submitTsNs : UInt64
  symbol : Symbol
  px : Int64
  qty : UInt32
  side : UInt8
  pad : Vector UInt8 3
  deriving DecidableEq

section Words

def u64Bytes (word : UInt64) : List UInt8 := LittleEndian.toBytes 8 word.toNat

def u32Bytes (word : UInt32) : List UInt8 := LittleEndian.toBytes 4 word.toNat

def readU64 (bytes : List UInt8) (offset : Nat) : UInt64 :=
  .ofNat (LittleEndian.ofBytes (LittleEndian.field bytes offset 8))

def readU32 (bytes : List UInt8) (offset : Nat) : UInt32 :=
  .ofNat (LittleEndian.ofBytes (LittleEndian.field bytes offset 4))

def readSymbol (bytes : List UInt8) (offset : Nat) : Symbol :=
  Vector.ofFn fun position => (LittleEndian.field bytes offset symbolLen).getD position 0

@[simp] theorem length_u64Bytes (word : UInt64) : (u64Bytes word).length = 8 :=
  LittleEndian.length_toBytes _ _

@[simp] theorem length_u32Bytes (word : UInt32) : (u32Bytes word).length = 4 :=
  LittleEndian.length_toBytes _ _

theorem ofBytes_u64Bytes (word : UInt64) :
    LittleEndian.ofBytes (u64Bytes word) = word.toNat := by
  have bound : word.toNat < 256 ^ 8 := word.toNat_lt
  rw [u64Bytes, LittleEndian.ofBytes_toBytes, Nat.mod_eq_of_lt bound]

theorem ofBytes_u32Bytes (word : UInt32) :
    LittleEndian.ofBytes (u32Bytes word) = word.toNat := by
  have bound : word.toNat < 256 ^ 4 := word.toNat_lt
  rw [u32Bytes, LittleEndian.ofBytes_toBytes, Nat.mod_eq_of_lt bound]

section Reads

variable {bytes : List UInt8} {offset : Nat}

theorem u64Bytes_readU64 (within : offset + 8 ≤ bytes.length) :
    u64Bytes (readU64 bytes offset) = LittleEndian.field bytes offset 8 := by
  have length := LittleEndian.length_field within
  have bound := LittleEndian.ofBytes_lt (LittleEndian.field bytes offset 8)
  have same := LittleEndian.toBytes_ofBytes (LittleEndian.field bytes offset 8)
  rw [length] at bound same
  rw [u64Bytes, readU64, UInt64.toNat_ofNat_of_lt' bound, same]

theorem u32Bytes_readU32 (within : offset + 4 ≤ bytes.length) :
    u32Bytes (readU32 bytes offset) = LittleEndian.field bytes offset 4 := by
  have length := LittleEndian.length_field within
  have bound := LittleEndian.ofBytes_lt (LittleEndian.field bytes offset 4)
  have same := LittleEndian.toBytes_ofBytes (LittleEndian.field bytes offset 4)
  rw [length] at bound same
  rw [u32Bytes, readU32, UInt32.toNat_ofNat_of_lt' bound, same]

theorem toList_readSymbol (within : offset + symbolLen ≤ bytes.length) :
    (readSymbol bytes offset).toList = LittleEndian.field bytes offset symbolLen := by
  have length := LittleEndian.length_field within
  apply List.ext_getElem
  · simp [length]
  · intro position bound inside
    simp [readSymbol, inside]

end Reads
end Words

namespace MarketTick

/-- `MarketTick::SIZE`: sixty bytes of fields, rounded up to the alignment of `u64`. -/
abbrev size : Nat := 64

/-- The bytes of a tick in memory; the last four belong to no field. -/
def bytes (tick : MarketTick) (padding : Vector UInt8 4) : List UInt8 :=
  u64Bytes tick.seqNum ++ u64Bytes tick.exchTsNs ++ u64Bytes tick.recvTsNs ++
    tick.symbol.toList ++ u64Bytes tick.bidPx.toUInt64 ++ u64Bytes tick.askPx.toUInt64 ++
    u32Bytes tick.bidSz ++ u32Bytes tick.askSz ++ u32Bytes tick.pad ++ padding.toList

/-- `ptr::read` of a tick at the start of a buffer. -/
def read (bytes : List UInt8) : MarketTick where
  seqNum := readU64 bytes 0
  exchTsNs := readU64 bytes 8
  recvTsNs := readU64 bytes 16
  symbol := readSymbol bytes 24
  bidPx := (readU64 bytes 32).toInt64
  askPx := (readU64 bytes 40).toInt64
  bidSz := readU32 bytes 48
  askSz := readU32 bytes 52
  pad := readU32 bytes 56

/-- A tick is read back from its bytes, whatever the padding and whatever follows. -/
theorem read_bytes (tick : MarketTick) (padding : Vector UInt8 4) (rest : List UInt8) :
    read (tick.bytes padding ++ rest) = tick := by
  simp (disch := simp [symbolLen]) [read, bytes, symbolLen, readU64, readU32, readSymbol,
    LittleEndian.field_skip, LittleEndian.field_here, ofBytes_u64Bytes, ofBytes_u32Bytes]

theorem length_bytes (tick : MarketTick) (padding : Vector UInt8 4) :
    (tick.bytes padding).length = size := by
  simp [bytes, symbolLen]

/-- The tick has, but for `recvTsNs`, the bytes of the datagram in each of its fields. -/
structure Carries (datagram : List UInt8) (recvTsNs : UInt64) (tick : MarketTick) : Prop where
  seqNum : u64Bytes tick.seqNum = LittleEndian.field datagram 0 8
  exchTsNs : u64Bytes tick.exchTsNs = LittleEndian.field datagram 8 8
  recvTsNs : tick.recvTsNs = recvTsNs
  symbol : tick.symbol.toList = LittleEndian.field datagram 24 8
  bidPx : u64Bytes tick.bidPx.toUInt64 = LittleEndian.field datagram 32 8
  askPx : u64Bytes tick.askPx.toUInt64 = LittleEndian.field datagram 40 8
  bidSz : u32Bytes tick.bidSz = LittleEndian.field datagram 48 4
  askSz : u32Bytes tick.askSz = LittleEndian.field datagram 52 4
  pad : u32Bytes tick.pad = LittleEndian.field datagram 56 4

theorem carries_read {datagram : List UInt8} (recvTsNs : UInt64) (whole : size ≤ datagram.length) :
    Carries datagram recvTsNs { read datagram with recvTsNs := recvTsNs } where
  seqNum := u64Bytes_readU64 (Nat.le_trans (by decide) whole)
  exchTsNs := u64Bytes_readU64 (Nat.le_trans (by decide) whole)
  recvTsNs := rfl
  symbol := toList_readSymbol (Nat.le_trans (by decide) whole)
  bidPx := u64Bytes_readU64 (Nat.le_trans (by decide) whole)
  askPx := u64Bytes_readU64 (Nat.le_trans (by decide) whole)
  bidSz := u32Bytes_readU32 (Nat.le_trans (by decide) whole)
  askSz := u32Bytes_readU32 (Nat.le_trans (by decide) whole)
  pad := u32Bytes_readU32 (Nat.le_trans (by decide) whole)

end MarketTick

namespace OrderMsg

/-- `OrderMsg::SIZE`. -/
abbrev size : Nat := 40

/-- The bytes of an order in memory; every one belongs to a field. -/
def bytes (order : OrderMsg) : List UInt8 :=
  u64Bytes order.orderId ++ u64Bytes order.submitTsNs ++ order.symbol.toList ++
    u64Bytes order.px.toUInt64 ++ u32Bytes order.qty ++ [order.side] ++ order.pad.toList

/-- `ptr::read` of an order at the start of a buffer. -/
def read (bytes : List UInt8) : OrderMsg where
  orderId := readU64 bytes 0
  submitTsNs := readU64 bytes 8
  symbol := readSymbol bytes 16
  px := (readU64 bytes 24).toInt64
  qty := readU32 bytes 32
  side := (LittleEndian.field bytes 36 1).headD 0
  pad := Vector.ofFn fun position => (LittleEndian.field bytes 37 3).getD position 0

/-- An order is read back from its bytes, whatever follows. -/
theorem read_bytes (order : OrderMsg) (rest : List UInt8) : read (order.bytes ++ rest) = order := by
  have behind : LittleEndian.field (order.side :: (order.pad.toList ++ rest)) 1 3 =
      order.pad.toList := LittleEndian.field_here order.pad.length_toList rest
  simp (disch := simp [symbolLen]) [read, bytes, symbolLen, readU64, readU32, readSymbol,
    LittleEndian.field_skip, LittleEndian.field_here, ofBytes_u64Bytes, ofBytes_u32Bytes, behind]
  rfl

theorem length_bytes (order : OrderMsg) : order.bytes.length = size := by
  simp [bytes, symbolLen]

end OrderMsg

end TradingPipeline.Shmbus
