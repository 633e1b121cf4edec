import Coverability.Backward.Config
import Coverability.Serial.Datum

/-! The written form of settings. A setting that is not given takes its default. -/

namespace Coverability

namespace OrderKind

def ofKey? (key : String) : Option OrderKind := all.find? fun kind => kind.key = key

def datum (kind : OrderKind) : Datum := .text kind.key

/-- A kind is written as its key, or as a record whose only field is the key, without a value. -/
def ofDatum? : Datum → Option OrderKind
  | .text key => ofKey? key
  | .record [(key, .null)] => ofKey? key
  | _ => none

end OrderKind

namespace Config

def datum (config : Config) : Datum :=
  .record
    [("check_initial", .bool config.checkInitial),
     ("timeout_ms", .natural config.timeout),
     ("order", config.order.datum),
     ("max_uq_instances", .natural config.maxInstances)]

/-- Reads a setting if it is given. -/
def setting? {α : Type} (read? : Datum → Option α) (standard : α) : Option Datum → Option α
  | none => some standard
  | some datum => read? datum

def ofDatum? (datum : Datum) : Option Config :=
  let standard : Config := {}
  match datum.optionalFields? ["check_initial", "timeout_ms", "order", "max_uq_instances"] with
  | some [checkInitial, timeout, order, maxInstances] => do
    return {
      checkInitial := ← setting? Datum.bool? standard.checkInitial checkInitial
      timeout := ← setting? Datum.natural? standard.timeout timeout
      order := ← setting? OrderKind.ofDatum? standard.order order
      maxInstances := ← setting? Datum.natural? standard.maxInstances maxInstances }
  | _ => none

end Config

end Coverability
