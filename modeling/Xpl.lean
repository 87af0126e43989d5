import Xpl.Collections.ArrayRemoval
import Xpl.Collections.ArraySearch
import Xpl.Collections.HashTableRehash
import Xpl.Collections.HashTableSharing
import Xpl.Collections.ListSorting
import Xpl.Collections.QsortStability
import Xpl.Collections.QueueRefinement
import Xpl.Dbus.BytesNeeded
import Xpl.Dbus.Framing
import Xpl.Dbus.Handshake
import Xpl.Dbus.Refusal
import Xpl.Digest.Chunks
import Xpl.Digest.Sha256
import Xpl.Host.IpExactness
import Xpl.Keyfile.SaveReload
import Xpl.Markup.Positions
import Xpl.Schema.Choices
import Xpl.Streams.StreamRuns
import Xpl.Text.Base64RoundTrip
import Xpl.Text.FastUcs4
import Xpl.Text.Normalization
import Xpl.Text.OutcomesUcs4
import Xpl.Text.Repair
import Xpl.Text.ShellComments
import Xpl.Text.ShellTokens
import Xpl.Time.DateRuns
import Xpl.Time.LocalLookup
import Xpl.Time.WeekDates
import Xpl.Uri.Escaping
import Xpl.Variant.Amplification
import Xpl.Variant.Confined
import Xpl.Variant.DepthGuard
import Xpl.Variant.MemberLocation
import Xpl.Variant.Numbers
import Xpl.Variant.SetCoalescence
import Xpl.Variant.Signature
import Xpl.Variant.SwapStructure
import Xpl.Variant.TypeInfoTable
