import Dalvik.Failure

/-!
# Categories of failures

The coarse classes that callers tell apart, whatever was being done when the failure arose.
-/

namespace Dalvik

inductive Category where
  | parse
  | format
  | shortRead
  | badPosition
  | noMark
  | leb128
  | noTarget
  | unresolved
  | badText
  | registerLimit
  | literalRange
  | notSequential
  | mutf8
  | noConstant
  | checksum
  | signature
  | entryNotFound
  | sizeMismatch
  | crcMismatch
  | shortWrite
  | unexpectedEof
  | eof
  | notExist
  deriving DecidableEq, Repr, Inhabited

namespace Category

def all : List Category :=
  [.parse, .format, .shortRead, .badPosition, .noMark, .leb128, .noTarget, .unresolved, .badText,
    .registerLimit, .literalRange, .notSequential, .mutf8, .noConstant, .checksum, .signature,
    .entryNotFound, .sizeMismatch, .crcMismatch, .shortWrite, .unexpectedEof, .eof, .notExist]

def name : Category → String
  | .parse => "parse"
  | .format => "format"
  | .shortRead => "short_read"
  | .badPosition => "bad_position"
  | .noMark => "no_mark"
  | .leb128 => "leb128"
  | .noTarget => "no_target"
  | .unresolved => "unresolved"
  | .badText => "syntax"
  | .registerLimit => "register_limit"
  | .literalRange => "literal_range"
  | .notSequential => "not_sequential"
  | .mutf8 => "mutf8"
  | .noConstant => "no_key"
  | .checksum => "checksum"
  | .signature => "signature"
  | .entryNotFound => "entry_not_found"
  | .sizeMismatch => "size_mismatch"
  | .crcMismatch => "crc_mismatch"
  | .shortWrite => "short_write"
  | .unexpectedEof => "unexpected_eof"
  | .eof => "eof"
  | .notExist => "not_exist"

end Category

namespace Failure

/-- The categories of a failure by itself. A missing target is also an unresolved reference, and so
is an unknown label. -/
def ownCategories : Failure → List Category
  | .parse _ (.unknownLabel _) => [.parse, .unresolved]
  | .parse .. => [.parse]
  | .mismatch .. | .malformed .. => [.format]
  | .shortRead .. => [.shortRead]
  | .badPosition .. => [.badPosition]
  | .noMark => [.noMark]
  | .leb128 .. => [.leb128]
  | .missingTarget => [.noTarget, .unresolved]
  | .unresolved .. => [.unresolved]
  | .badSyntax .. | .notOfType => [.badText]
  | .registerRange .. | .registerCount .. | .registerSlot .. => [.registerLimit]
  | .literalRange .. => [.literalRange]
  | .notSequential .. => [.notSequential]
  | .mutf8 .. => [.mutf8]
  | .noConstant .. => [.noConstant]
  | .checksum .. => [.checksum]
  | .signature .. => [.signature]
  | .entryNotFound .. => [.entryNotFound]
  | .sizeMismatch .. => [.sizeMismatch]
  | .crcMismatch .. => [.crcMismatch]
  | .shortWrite => [.shortWrite]
  | .unexpectedEof => [.unexpectedEof]
  | .eof => [.eof]
  | .disk _ _ .notExist => [.notExist]
  | _ => []

/-- Every category that the failure or a cause of it falls into. -/
def categories (f : Failure) : List Category :=
  Category.all.filter (f.chain.flatMap ownCategories).contains

end Failure

end Dalvik
