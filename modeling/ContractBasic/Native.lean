/-
The native functions that a contract may call.

A native whose result depends on its arguments has an unknown type; one that never returns has none.

* `Native.catalog` — all of them, in the order in which they are declared
* `Native.find?` — one by its name; case matters here
-/
import ContractBasic.ValueType

namespace ContractBasic

/-- A native function.  Costs are for hosts that account for them. -/
structure Native where
  name : String
  params : List (String × ValueType)
  /-- `none` for a function that never returns. -/
  returns : Option ValueType
  computeCost : Nat
  storageCost : Nat
deriving DecidableEq, Repr

namespace Native

/-- Every native function. -/
def catalog : List Native := [
  ⟨"VERSION", [("v", .string)], some .uint64, 1000, 0⟩,
  ⟨"LOAD", [("key", .unknown)], some .unknown, 5000, 0⟩,
  ⟨"EXISTS", [("key", .unknown)], some .uint64, 5000, 0⟩,
  ⟨"STORE", [("key", .unknown), ("value", .unknown)], some .uint64, 10000, 0⟩,
  ⟨"DELETE", [("key", .unknown)], some .uint64, 3000, 0⟩,
  ⟨"MAPEXISTS", [("key", .unknown)], some .uint64, 1000, 0⟩,
  ⟨"MAPGET", [("key", .unknown)], some .unknown, 1000, 0⟩,
  ⟨"MAPSTORE", [("key", .unknown), ("value", .unknown)], some .uint64, 1000, 0⟩,
  ⟨"MAPDELETE", [("key", .unknown)], some .uint64, 1000, 0⟩,
  ⟨"RANDOM", [("limit", .uint64)], some .uint64, 2500, 0⟩,
  ⟨"SCID", [], some .string, 2000, 0⟩,
  ⟨"BLID", [], some .string, 2000, 0⟩,
  ⟨"TXID", [], some .string, 2000, 0⟩,
  ⟨"DERO", [], some .string, 10000, 0⟩,
  ⟨"BLOCK_HEIGHT", [], some .uint64, 2000, 0⟩,
  ⟨"BLOCK_TIMESTAMP", [], some .uint64, 2500, 0⟩,
  ⟨"SIGNER", [], some .string, 5000, 0⟩,
  ⟨"UPDATE_SC_CODE", [("sc_code", .string)], some .uint64, 5000, 0⟩,
  ⟨"IS_ADDRESS_VALID", [("address", .string)], some .uint64, 50000, 0⟩,
  ⟨"ADDRESS_RAW", [("address", .string)], some .string, 60000, 0⟩,
  ⟨"ADDRESS_STRING", [("p", .string)], some .string, 50000, 0⟩,
  ⟨"SEND_DERO_TO_ADDRESS", [("a", .string), ("amount", .uint64)], some .uint64, 70000, 0⟩,
  ⟨"SEND_ASSET_TO_ADDRESS", [("a", .string), ("amount", .uint64), ("asset", .string)], some .uint64, 90000, 0⟩,
  ⟨"DEROVALUE", [], some .uint64, 10000, 0⟩,
  ⟨"ASSETVALUE", [("asset", .string)], some .uint64, 10000, 0⟩,
  ⟨"ATOI", [("s", .string)], some .uint64, 5000, 0⟩,
  ⟨"ITOA", [("n", .uint64)], some .string, 5000, 0⟩,
  ⟨"SHA256", [("s", .string)], some .string, 25000, 0⟩,
  ⟨"SHA3256", [("s", .string)], some .string, 25000, 0⟩,
  ⟨"KECCAK256", [("s", .string)], some .string, 25000, 0⟩,
  ⟨"HEX", [("s", .string)], some .string, 10000, 0⟩,
  ⟨"HEXDECODE", [("s", .string)], some .string, 10000, 0⟩,
  ⟨"MIN", [("f", .uint64), ("s", .uint64)], some .uint64, 5000, 0⟩,
  ⟨"MAX", [("f", .uint64), ("s", .uint64)], some .uint64, 5000, 0⟩,
  ⟨"STRLEN", [("s", .string)], some .uint64, 20000, 0⟩,
  ⟨"SUBSTR", [("s", .string), ("offset", .uint64), ("length", .uint64)], some .string, 20000, 0⟩,
  ⟨"PANIC", [], none, 10000, 0⟩]

/-- The native of a name. -/
def find? (name : String) : Option Native :=
  catalog.find? (·.name = name)

end Native

end ContractBasic
