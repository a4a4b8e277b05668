import HeliosLite.Domain.Conversation
import HeliosLite.Serde.JsonText

/-!
# The libraries under the store

What the store takes from other crates: the text of ids and times, compression, and the
repair of malformed JSON. Each law is the round trip that the store relies on.

## Main definitions

* `Libraries` — the functions and their laws
* `Stamp` — a timestamp column that reads back
-/

namespace HeliosLite

open Serde

/-- The time without its digits below a millisecond. -/
def DateTime.floorMillis (t : DateTime) : DateTime :=
  { nanos := t.nanos / 1000000 * 1000000
    lower := by have := t.lower; omega
    upper := by have := t.upper; omega }

/-- The whole seconds since the epoch. -/
def DateTime.timestamp (t : DateTime) : ℤ := t.nanos / 1000000000

/-- The functions of other crates that the store calls. -/
class Libraries extends JsonText where
  /-- A UUID in its hyphenated form. -/
  uuidText : BitVec 128 → String
  parseUuid : String → Option (BitVec 128)
  /-- A time in a JSON document. -/
  jsonTime : DateTime → String
  parseJsonTime : String → Option DateTime
  /-- A time in a timestamp column. -/
  sqlTime : DateTime → String
  parseSqlTime : String → Option DateTime
  /-- `strftime('%Y-%m-%dT%H:%M:%fZ', 'now')` of SQLite. -/
  strftimeNow : DateTime → String
  /-- `datetime(n, 'unixepoch')` of SQLite, which is NULL out of range. -/
  unixEpoch : ℤ → Option String
  rfc3339 : DateTime → String
  /-- A text read with a chrono format. -/
  parseFromStr : (text format : String) → Option DateTime
  compress : String → Option ByteArray
  decompress : ByteArray → Option String
  /-- The value of a JSON text that may need repair. -/
  jsonRepair : String → Option Value
  parseUuid_uuidText : ∀ u, parseUuid (uuidText u) = some u
  parseJsonTime_jsonTime : ∀ t, parseJsonTime (jsonTime t) = some t
  parseSqlTime_sqlTime : ∀ t, parseSqlTime (sqlTime t) = some t
  parseSqlTime_jsonTime : ∀ t, parseSqlTime (jsonTime t) = some t
  parseSqlTime_strftimeNow : ∀ t, parseSqlTime (strftimeNow t) = some t.floorMillis
  /-- The text that a rewind to the start leaves. -/
  fromText_noMessages : fromText "\x7b\"messages\":[]\x7d" = some (.obj [("messages", .arr [])])
  /-- Compression is lossless. -/
  decompress_compress : ∀ s blob, compress s = some blob → decompress blob = some s

variable [Libraries]

namespace ConversationId

def intoString (id : ConversationId) : String := Libraries.uuidText id.uuid

def parse (s : String) : Option ConversationId := (Libraries.parseUuid s).map fun u => ⟨u⟩

@[simp] theorem parse_intoString (id : ConversationId) : parse id.intoString = some id := by
  rw [parse, intoString, Libraries.parseUuid_uuidText]
  rfl

theorem intoString_injective {a b : ConversationId} (h : a.intoString = b.intoString) :
    a = b := by
  apply Option.some.inj
  rw [← parse_intoString a, h, parse_intoString]

end ConversationId

/-- A timestamp column that reads back: its text, and the time it stands for. -/
structure Stamp where
  text : String
  time : DateTime
  readable : Libraries.parseSqlTime text = some time
  deriving DecidableEq

namespace Stamp

/-- A time as the object mapper writes it. -/
def naive (t : DateTime) : Stamp := ⟨_, t, Libraries.parseSqlTime_sqlTime t⟩

/-- A time as a JSON document writes it. -/
def rfc3339 (t : DateTime) : Stamp := ⟨_, t, Libraries.parseSqlTime_jsonTime t⟩

/-- The current time as SQLite writes it. -/
def strftime (now : DateTime) : Stamp := ⟨_, _, Libraries.parseSqlTime_strftimeNow now⟩

end Stamp

end HeliosLite
