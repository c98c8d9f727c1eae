import Mathlib

/-!
# Core.MojErr

The errors the modelled code throws.
-/

namespace Db8

inductive MojErr where
  | invalidArg
  | notImplemented
  | invalidBase64Data
  | unexpectedEof
  | requiredPropNotFound
  | dbInvalidIndex
  | dbInvalidQuery
  | dbInvalidQueryOp
  | dbInvalidQueryOpCombo
  | dbInvalidQueryCollationMismatch
  | internalIndexOnDel
  | internalIndexOnFind
  | objectReaderUnexpectedMarker
  | dbInvalidToken
  | dbInvalidKindToken
  | dbHeaderVersionMismatch
  | dbIo
  | jsonParseEof
  | jsonParseUnexpected
  | jsonParseNull
  | jsonParseComment
  | jsonParseEscape
  | jsonParseBool
  | jsonParseInt
  | jsonParseArray
  | jsonParsePropName
  | jsonParseValueSep
  | jsonParseMaxDepth
  | invalidDecimal
  | valueOutOfRange
  | notFound
  | accessDenied
  | dbAccessDenied
  | dbPermissionDenied
  | dbQuotaExceeded
  | dbMalformedId
  | dbKindNotSpecified
  | dbKindNotRegistered
  | dbKindHasSubKinds
  | dbInvalidCaller
  | dbInvalidPermissions
  | dbInvalidIndexName
  | dbInvalidRevisionSet
  | dbRevNotSpecified
  | dbRevisionMismatch
  | dbBackupFull
  | dbUnicode
  | dbInvalidAggregateType
  | dbNoIndexForQuery
  | dbCorruptDatabase
  deriving DecidableEq

end Db8
