import ColorChain.Markup.Escape
import ColorChain.Markup.Piece
import ColorChain.Number.Text
import ColorChain.Record.Element
import ColorChain.Storage.Directory

/-!
# Faults of record documents
-/

namespace ColorChain.Record

open Markup Storage

/-- Where a document holds text. -/
inductive TextSource where
  | text
  | cdata
  | reference
deriving DecidableEq, Repr

def TextSource.name : TextSource → String
  | .text => "text"
  | .cdata => "CDATA"
  | .reference => "entity"

/-- Why a document yields no record. -/
inductive DocumentFault where
  | valueCount (setting : Setting) (count : Nat)
  | value (setting : Setting) (text : List Char) (fault : Number.ReadFault)
  | attribute (text : List Char) (fault : EscapeFault)
  | encoding (source : TextSource) (fault : Text.Utf8Fault)
  | reference (fault : NumberFault)
  | unknownEntity (name : List Char)
  | markup (fault : MarkupFault)
  /-- The document was opened and could not be read. -/
  | unreadable (fault : FileFault)
  | unclosed (element : String)
  | noCorrection
  | unknownExtension (extension : List Char)
deriving DecidableEq, Repr

def DocumentFault.message : DocumentFault → String
  | .valueCount setting count => s!"<{setting.name}> expects 3 values, got {count}"
  | .value setting text fault =>
    s!"invalid <{setting.name}> value '" ++ String.ofList text ++ "': " ++ fault.message
  | .attribute text fault =>
    "bad attribute value '" ++ String.ofList text ++ "': " ++ fault.message
  | .encoding source fault =>
    source.name ++ " decoding: cannot decode input using UTF-8: " ++ fault.message
  | .reference fault => "bad character reference: " ++ fault.message
  | .unknownEntity name => "unknown entity '&" ++ String.ofList name ++ ";'"
  | .markup fault => "XML error: " ++ fault.message
  | .unreadable fault => "XML error: I/O error: " ++ fault.message
  | .unclosed element => "unexpected end of document inside <" ++ element ++ ">"
  | .noCorrection => "no <ColorCorrection> element found"
  | .unknownExtension extension => "Unknown CDL extension: " ++ String.ofList extension

/-- Why a file yields no record. -/
inductive RecordFault where
  | document (fault : DocumentFault)
  | file (fault : FileFault)
deriving DecidableEq, Repr

def RecordFault.message : RecordFault → String
  | .document fault => "parse error: " ++ fault.message
  | .file fault => "I/O error: " ++ fault.message

end ColorChain.Record
