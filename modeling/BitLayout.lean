import BitLayout.Expansion
import BitLayout.Item.Edit
import BitLayout.Proofs.Code.Capture
import BitLayout.Proofs.Code.Grouping
import BitLayout.Proofs.Code.Mirror
import BitLayout.Proofs.Code.Names
import BitLayout.Proofs.Code.Restored
import BitLayout.Proofs.Code.Selection
import BitLayout.Proofs.Code.WrittenOut
import BitLayout.Proofs.Decl.Cycles
import BitLayout.Proofs.Decl.Omission
import BitLayout.Proofs.Decl.Sharing
import BitLayout.Proofs.Encoding.Precedence
import BitLayout.Proofs.Encoding.Shortcuts
import BitLayout.Proofs.Expansion
import BitLayout.Proofs.Memory.Tags
import BitLayout.Proofs.Registry.Hints
import BitLayout.Proofs.Registry.Unfolding
import BitLayout.Proofs.Request.Kinds
import BitLayout.Proofs.Sector.Fewest
import BitLayout.Proofs.Sector.NormalForm
import BitLayout.Proofs.Sector.Oversized
import BitLayout.Proofs.Sector.Tags
import BitLayout.Proofs.Sector.Trailing
import BitLayout.Proofs.Sector.Unpacking
import BitLayout.Proofs.Strict.Faultless
import BitLayout.Proofs.Strict.Integers
import BitLayout.Token.Lexer
