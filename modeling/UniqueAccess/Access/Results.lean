import UniqueAccess.Access.Packed
import UniqueAccess.Json.Writer

/-!
# Kept results

Passes over a whole program are costly, so their results are kept until they are given up. A cache
is a map from passes to results in which the pass decides the type of its result. Among the passes
is always the one that gathers packed containers; a program may have passes of its own beside it.
What changes a cache and may fail gives the cache that it leaves behind in either case.
-/

namespace UniqueAccess

class PassFamily (π : Type) where
  Result : π → Type
  name : π → String

inductive AnyPass (π : Type) where
  | packedAccess
  | other (pass : π)
deriving DecidableEq

instance {π : Type} [PassFamily π] : PassFamily (AnyPass π) where
  Result
    | .packedAccess => PackedAccess
    | .other pass => PassFamily.Result pass
  name
    | .packedAccess => "GatherUniquelyAccessedBitStructsPass"
    | .other pass => PassFamily.name pass

instance : PassFamily Empty where
  Result := nofun
  name := nofun

structure ResultCache (π : Type) [PassFamily π] where
  entries : List ((pass : π) × PassFamily.Result pass)
  nodup : (entries.map Sigma.fst).Nodup

namespace ResultCache

variable {π : Type} [PassFamily π]

def empty : ResultCache π := ⟨[], by simp⟩

def size (c : ResultCache π) : Nat := c.entries.length

def passes (c : ResultCache π) : List π := c.entries.map Sigma.fst

variable [DecidableEq π]

def lookup (pass : π) :
    List ((pass : π) × PassFamily.Result pass) → Option (PassFamily.Result pass)
  | [] => none
  | ⟨other, result⟩ :: rest => if h : other = pass then some (h ▸ result) else lookup pass rest

def get? (c : ResultCache π) (pass : π) : Option (PassFamily.Result pass) := lookup pass c.entries

def contains (c : ResultCache π) (pass : π) : Bool := (c.get? pass).isSome

def invalidate (c : ResultCache π) (pass : π) : ResultCache π :=
  ⟨c.entries.filter fun e => e.1 ≠ pass,
    (List.filter_sublist.map Sigma.fst).nodup c.nodup⟩

def put (c : ResultCache π) (pass : π) (result : PassFamily.Result pass) : ResultCache π :=
  ⟨⟨pass, result⟩ :: (c.invalidate pass).entries, by
    refine List.nodup_cons.mpr ⟨?_, (c.invalidate pass).nodup⟩
    simp [invalidate]⟩

def getOrCompute {ε : Type} (c : ResultCache π) (pass : π)
    (compute : Unit → Except ε (PassFamily.Result pass)) :
    Except ε (PassFamily.Result pass) × ResultCache π :=
  match c.get? pass with
  | some result => (.ok result, c)
  | none =>
    match compute () with
    | .ok result => (.ok result, c.put pass result)
    | .error e => (.error e, c)

def names (c : ResultCache π) : List String :=
  (c.passes.map PassFamily.name).mergeSort fun a b => decide (a ≤ b)

def text (c : ResultCache π) : String :=
  let quoted := c.names.map fun name => String.ofList (Json.quote name)
  "AnalysisManager \x7b passes: [" ++ String.intercalate ", " quoted ++ "] \x7d"

end ResultCache

namespace Program

/-- Gathers the packed containers and keeps them, also in place of an older result. -/
def gatherPacked {π : Type} [PassFamily π] [DecidableEq π] (p : Program) (o : AliasOracle)
    (c : ResultCache (AnyPass π)) : Except AccessError Unit × ResultCache (AnyPass π) :=
  match p.packedAccess o with
  | .ok packed => (.ok (), c.put .packedAccess packed)
  | .error e => (.error e, c)

end Program

end UniqueAccess
