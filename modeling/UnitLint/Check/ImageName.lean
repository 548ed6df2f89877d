import UnitLint.UnitType

/-! # Image names

An image name is ambiguous unless it is a reference to an image or build unit, the digest of an
image, or starts with a registry: a name with a dot or a colon, or `localhost`, before the first
slash. -/

namespace UnitLint.ImageName

/-- Whether a name is a digest: one with its algorithm, or 64 lower-case hexadecimal digits. -/
def isDigest (s : List Char) : Bool :=
  "sha256:".toList.isPrefixOf s ||
    (s.length == 64 && s.all fun c => ('0' ≤ c && c ≤ '9') || ('a' ≤ c && c ≤ 'f'))

/-- Whether the part of a name before the first slash is a registry. -/
def isRegistry (s : List Char) : Bool := s.contains '.' || s.contains ':' || s == "localhost".toList

/-- Whether a name starts with a registry and a slash. -/
def isQualified (s : List Char) : Bool := s.contains '/' && isRegistry (s.takeWhile (· != '/'))

/-- Whether it depends on the search registries what a name stands for. -/
def isAmbiguous (s : List Char) : Bool :=
  !(UnitType.namedBy s .image || UnitType.namedBy s .build || isDigest s || isQualified s)

end UnitLint.ImageName
