import StackToolchain.Assembly.Listing
import StackToolchain.Diagnostic

/-! Reports of listing errors. -/
namespace StackToolchain

def ListingError.place (e : ListingError) (file : String) (text : String) : Place where
  file := file
  line := e.line
  column := none
  excerpt := String.ofList ((Text.lines text.toList)[e.line]?.getD [])

def ListingError.report (e : ListingError) (file : String) (text : String) : String :=
  StackToolchain.report e.cause.message (some (e.place file text))

end StackToolchain
