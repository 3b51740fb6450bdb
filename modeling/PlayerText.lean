import PlayerText.Configuration.Store
import PlayerText.Formatter
import PlayerText.Media.Json
import PlayerText.Metadata.Json
import PlayerText.Proofs.Clock.Literal
import PlayerText.Proofs.Clock.Stamp
import PlayerText.Proofs.Configuration.Partial
import PlayerText.Proofs.Configuration.Run
import PlayerText.Proofs.Display.Composition
import PlayerText.Proofs.Display.Dependence
import PlayerText.Proofs.Display.Literal
import PlayerText.Proofs.Display.Percent
import PlayerText.Proofs.Display.Print
import PlayerText.Proofs.Display.Pruning
import PlayerText.Proofs.Display.Session
import PlayerText.Proofs.Display.Size
import PlayerText.Proofs.Display.Title
import PlayerText.Proofs.Formatter
import PlayerText.Proofs.Inline.FileName
import PlayerText.Proofs.Inline.Literal
import PlayerText.Proofs.Media
import PlayerText.Proofs.Metadata.Object
import PlayerText.Proofs.Playback.Order
import PlayerText.Proofs.Text.Cursor
import PlayerText.Proofs.Text.GroupRow
