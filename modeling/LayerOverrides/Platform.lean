import LayerOverrides.Text.Vocabulary
/-!
# Platforms and sets of platforms

Configurations and layer entries apply to some of four platforms. Documents list the platforms of a
set by their tokens; tokens that name no platform are passed over.
-/

namespace LayerOverrides

inductive Platform where
  | windows
  | linux
  | macos
  | android
  deriving DecidableEq

namespace Platform

/-- All platforms, in the order of their bits. -/
def all : List Platform := [.windows, .linux, .macos, .android]

def token : Platform → String
  | .windows => "WINDOWS"
  | .linux => "LINUX"
  | .macos => "MACOS"
  | .android => "ANDROID"

def ofToken? (s : String) : Option Platform := Text.findSpelled all token s.toList

/-- The platform with exactly this token. -/
def ofExactToken? (s : String) : Option Platform := all.find? fun p => p.token == s

def bit : Platform → Nat
  | .windows => 1
  | .linux => 2
  | .macos => 4
  | .android => 8

/-- The platform that this library runs on. -/
def current : Platform := .linux

end Platform

structure PlatformSet where
  windows : Bool
  linux : Bool
  macos : Bool
  android : Bool
  deriving DecidableEq

namespace PlatformSet

def contains (s : PlatformSet) : Platform → Bool
  | .windows => s.windows
  | .linux => s.linux
  | .macos => s.macos
  | .android => s.android

def ofPredicate (p : Platform → Bool) : PlatformSet :=
  ⟨p .windows, p .linux, p .macos, p .android⟩

def none : PlatformSet := ofPredicate fun _ => false

def all : PlatformSet := ofPredicate fun _ => true

def singleton (p : Platform) : PlatformSet := ofPredicate fun q => q = p

def union (s t : PlatformSet) : PlatformSet := ofPredicate fun p => s.contains p || t.contains p

def inter (s t : PlatformSet) : PlatformSet := ofPredicate fun p => s.contains p && t.contains p

def diff (s t : PlatformSet) : PlatformSet := ofPredicate fun p => s.contains p && !t.contains p

/-- Whether every platform of the second set is in the first. -/
def includes (s t : PlatformSet) : Bool := Platform.all.all fun p => !t.contains p || s.contains p

def meets (s t : PlatformSet) : Bool := Platform.all.any fun p => s.contains p && t.contains p

def toList (s : PlatformSet) : List Platform := Platform.all.filter s.contains

def tokens (s : PlatformSet) : List String := s.toList.map Platform.token

/-- The platforms that the tokens name. -/
def ofTokens (tokens : List String) : PlatformSet :=
  let named := tokens.filterMap Platform.ofToken?
  ofPredicate fun p => named.contains p

def bits (s : PlatformSet) : Nat := (s.toList.map Platform.bit).foldr (· + ·) 0

theorem ofTokens_tokens (s : PlatformSet) : ofTokens s.tokens = s := by
  rcases s with ⟨_ | _, _ | _, _ | _, _ | _⟩ <;> decide

end PlatformSet

end LayerOverrides
