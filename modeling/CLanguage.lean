import CLanguage.Sfmm.FreeLists
import CLanguage.Sfmm.Growth
import CLanguage.Sfmm.Frees
import CLanguage.Sfmm.Shrinking
import CLanguage.Registry.Drain
import CLanguage.Audio.Speedup
import CLanguage.Audio.Slowdown
import CLanguage.Audio.Crypt
import CLanguage.Audio.AudioBytes
import CLanguage.Audio.Buffers
import CLanguage.Audio.Documented
import CLanguage.Audio.Interpolated
import CLanguage.Audio.Header
import CLanguage.Xacto.Session
import CLanguage.Xacto.Delivery
import CLanguage.Xacto.Calls
import CLanguage.Xacto.Termination
import CLanguage.Xacto.BlobCounts
import CLanguage.Xacto.Final
import CLanguage.Xacto.References
import CLanguage.Xacto.Interleaving
import CLanguage.Xacto.Compare
import CLanguage.Imprimer.CommandFile
import CLanguage.Imprimer.Declarations
import CLanguage.Imprimer.PrinterSets
import CLanguage.Imprimer.InBounds
import CLanguage.Grades.Duplicates
import CLanguage.Grades.Sums
import CLanguage.Grades.Histograms
import CLanguage.Grades.Interpolation
import CLanguage.Grades.LikeAverage
import CLanguage.Gradebook.Dropped
import CLanguage.Gradebook.Includes
import CLanguage.Gradebook.TokenBuffer
import CLanguage.Gradebook.RoundTrip
import CLanguage.Sfmm.Refinement
import CLanguage.Sfmm.Accounting
import CLanguage.Imprimer.Lifecycle
import CLanguage.Grades.Linear
import CLanguage.Grades.Composites
import CLanguage.Xacto.Transport
import CLanguage.Xacto.Replies
import CLanguage.Xacto.Listing
import CLanguage.Audio.Encryptions
import CLanguage.Registry.Departures
