import Mathlib.Data.Finmap
import Foxing.FileSystem
import Foxing.FxarFormat

/-!
# Sidecar files

The metadata of a file is kept in extended attributes or, where there are none, in a sidecar
file beside it: a JSON map from attribute names to hexadecimal texts. A key stands for two
names, one in the trusted namespace and one in that of users; it may be given as either of them.
The sidecar has the second.
-/
namespace Foxing.Sidecar

def nsUserPrefix : String := "user.foxing."

def nsTrustedPrefix : String := "trusted.foxing."

/-- The trusted name and the user name of a key. -/
def resolveKeyVariants (key : String) : String × String :=
  if startsWith key "user.foxing." then
    (nsTrustedPrefix ++ String.ofList (key.toList.drop 12), key)
  else if startsWith key "trusted.foxing." then
    (key, nsUserPrefix ++ String.ofList (key.toList.drop 15))
  else (nsTrustedPrefix ++ key, nsUserPrefix ++ key)

/-- A key without the namespace that it may be given with. -/
def bareKey (key : String) : String :=
  if startsWith key "user.foxing." then String.ofList (key.toList.drop 12)
  else if startsWith key "trusted.foxing." then String.ofList (key.toList.drop 15)
  else key

theorem append_drop_of_startsWith {s t : String} (h : startsWith s t = true) :
    t ++ String.ofList (s.toList.drop t.toList.length) = s := by
  have hpre : t.toList <+: s.toList := List.isPrefixOf_iff_prefix.mp h
  apply String.toList_inj.mp
  rw [String.toList_append, String.toList_ofList]
  exact (List.prefix_append_drop hpre).symm

theorem resolveKeyVariants_eq (key : String) :
    resolveKeyVariants key = (nsTrustedPrefix ++ bareKey key, nsUserPrefix ++ bareKey key) := by
  unfold resolveKeyVariants bareKey
  split_ifs with huser htrusted
  · rw [nsUserPrefix]
    exact congrArg _ (append_drop_of_startsWith huser).symm
  · rw [nsTrustedPrefix]
    exact congrArg (·, _) (append_drop_of_startsWith htrusted).symm
  · rfl

/-- Names in the two namespaces differ. -/
theorem trusted_ne_user (a b : String) : nsTrustedPrefix ++ a ≠ nsUserPrefix ++ b := by
  intro h
  have hchars := congrArg String.toList h
  rw [String.toList_append, String.toList_append] at hchars
  have hhead := congrArg List.head? hchars
  revert hhead
  rw [List.head?_append_of_ne_nil _ (by decide), List.head?_append_of_ne_nil _ (by decide)]
  decide

theorem append_left_cancel {p a b : String} (h : p ++ a = p ++ b) : a = b := by
  have hchars := congrArg String.toList h
  rw [String.toList_append, String.toList_append] at hchars
  exact String.toList_inj.mp (List.append_cancel_left hchars)

/-! ## The map of a sidecar -/

abbrev SidecarMap := Finmap (fun _ : String => String)

/-- A new value goes under the user name. -/
def insertEntry (map : SidecarMap) (entry : String × Bytes) : SidecarMap :=
  map.insert (resolveKeyVariants entry.1).2 (hexEncode entry.2)

/-- Is there a value under one of the names? -/
def hasKey (map : SidecarMap) (key : String) : Bool :=
  (map.lookup (resolveKeyVariants key).1).isSome ||
    ((map.erase (resolveKeyVariants key).1).lookup (resolveKeyVariants key).2).isSome

def eraseKey (map : SidecarMap) (key : String) : SidecarMap :=
  (map.erase (resolveKeyVariants key).1).erase (resolveKeyVariants key).2

theorem erase_eq_self {map : SidecarMap} {name : String} (h : map.lookup name = none) :
    map.erase name = map := by
  refine Finmap.ext_lookup fun other => ?_
  by_cases heq : other = name
  · rw [heq, Finmap.lookup_erase, h]
  · exact Finmap.lookup_erase_ne heq

theorem eraseKey_of_not_hasKey {map : SidecarMap} {key : String} (h : hasKey map key = false) :
    eraseKey map key = map := by
  obtain ⟨htrusted, huser⟩ := Bool.or_eq_false_iff.mp h
  rw [Option.isSome_eq_false_iff, Option.isNone_iff_eq_none] at htrusted huser
  rw [eraseKey, erase_eq_self huser, erase_eq_self htrusted]

theorem hasKey_empty (key : String) : hasKey ∅ key = false := by
  have hlookup : ∀ name, (∅ : SidecarMap).lookup name = none := fun name => Finmap.lookup_empty name
  rw [hasKey, erase_eq_self (hlookup _), hlookup, hlookup]
  rfl

/-- Digits may be in upper case, too. -/
def hexDecode (text : String) : Option Bytes := hexDecodeChars (text.toList.map Char.toLower)

theorem hexDecode_hexEncode (value : Bytes) : hexDecode (hexEncode value) = some value := by
  have hdigits : ∀ c ∈ hexDigits, c.toLower = c := by simp [hexDigits]
  have hdigit : ∀ n, hexDigits.getD n '0' ∈ hexDigits := by
    intro n
    rw [List.getD_eq_getElem?_getD]
    cases hn : hexDigits[n]? with
    | none => decide
    | some c => exact List.mem_of_getElem? hn
  have hlower : (hexEncode value).toList.map Char.toLower = (hexEncode value).toList := by
    unfold hexEncode
    rw [String.toList_ofList]
    refine (List.map_congr_left fun c hc => hdigits c ?_).trans (List.map_id _)
    obtain ⟨b, -, hb⟩ := List.mem_flatMap.mp hc
    rcases List.mem_cons.mp hb with rfl | hb
    · exact hdigit _
    · rw [List.mem_singleton.mp hb]
      exact hdigit _
  rw [hexDecode, hlower]
  exact hexDecodeChars_hexEncode value

/-- What a call does to the sidecar of its target. -/
inductive SidecarOp where
  | set (key : String) (value : Bytes)
  | setBatch (entries : List (String × Bytes))
  | remove (key : String)
  deriving DecidableEq, Repr

namespace SidecarOp

def apply : SidecarOp → SidecarMap → SidecarMap
  | .set key value, map => insertEntry map (key, value)
  | .setBatch entries, map => entries.foldl insertEntry map
  | .remove key, map => eraseKey map key

/-- A removal leaves the sidecar alone unless it finds the key. -/
def rewrites : SidecarOp → SidecarMap → Bool
  | .remove key, map => hasKey map key
  | _, _ => true

def isRemove : SidecarOp → Bool
  | .remove _ => true
  | _ => false

theorem apply_of_not_rewrites {op : SidecarOp} {map : SidecarMap} (h : op.rewrites map = false) :
    op.apply map = map := by
  cases op with
  | set key value => cases h
  | setBatch entries => cases h
  | remove key => exact eraseKey_of_not_hasKey h

theorem rewrites_empty {op : SidecarOp} (h : op.isRemove = true) : op.rewrites ∅ = false := by
  cases op with
  | set key value => cases h
  | setBatch entries => cases h
  | remove key => exact hasKey_empty key

end SidecarOp

end Foxing.Sidecar
