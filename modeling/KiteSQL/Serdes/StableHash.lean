import KiteSQL.Types.MemComparable

/-! The keyed hash whose value is part of stored keys. -/
namespace KiteSQL

open Endian

def fnvOffset : UInt64 := 0xcbf29ce484222325

def fnvPrime : UInt64 := 0x00000100000001b3

def tableNameHashKeys : UInt64 × UInt64 := (0x9e3779b97f4a7c15, 0xbf58476d1ce4e5b9)

def mix64 (value : UInt64) : UInt64 :=
  let value := value ^^^ (value >>> 30)
  let value := value * 0xbf58476d1ce4e5b9
  let value := value ^^^ (value >>> 27)
  let value := value * 0x94d049bb133111eb
  value ^^^ (value >>> 31)

def rotateLeft (value n : UInt64) : UInt64 := (value <<< n) ||| (value >>> (64 - n))

def rotateRight (value n : UInt64) : UInt64 := (value >>> n) ||| (value <<< (64 - n))

structure StableHasher where
  key0 : UInt64
  key1 : UInt64
  hash : UInt64

namespace StableHasher

def newWithKeys (key0 key1 : UInt64) : StableHasher :=
  ⟨key0, key1, mix64 (fnvOffset ^^^ key0) + mix64 key1⟩

def write (hasher : StableHasher) (bytes : Bytes) : StableHasher :=
  bytes.foldl (fun h byte => { h with hash := (h.hash ^^^ byte.toUInt64) * fnvPrime }) hasher

/-- A string is hashed as its bytes and one terminating byte. -/
def writeStr (hasher : StableHasher) (s : String) : StableHasher :=
  (hasher.write (asBytes s)).write [0xff]

def finish (hasher : StableHasher) : UInt64 :=
  mix64 (hasher.hash ^^^ rotateLeft hasher.key0 17 ^^^ rotateRight hasher.key1 11)

end StableHasher

/-- The name of a table as its keys carry it. -/
def hashBytes (tableName : String) : Bytes :=
  let hasher := StableHasher.newWithKeys tableNameHashKeys.1 tableNameHashKeys.2
  toLeBytes 8 (hasher.writeStr tableName).finish.toNat

@[simp] theorem length_hashBytes (tableName : String) : (hashBytes tableName).length = 8 :=
  length_toLeBytes _ _

end KiteSQL
