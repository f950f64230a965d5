import Gnunet.CadetReordering
import Gnunet.CadetRekey
import Gnunet.CadetTunnelKeys
import Gnunet.CoreSessionKeys
import Gnunet.CoreReplay
import Gnunet.CadetChannelOutOfOrder
import Gnunet.CadetChannelEnd
import Gnunet.SetSnapshots
import Gnunet.SetUnionSalts
import Gnunet.MessageStreamTokenizer
import Gnunet.FragmentationLink
import Gnunet.DnsPacking
import Gnunet.ConfigurationRoundTrip
import Gnunet.FsSearch
import Gnunet.FsTreeEncoder
import Gnunet.FsDownloadProgress
import Gnunet.FsDirectoryRoundTrip
import Gnunet.FsRecursiveDownload
import Gnunet.ContainerHeapInvariant
import Gnunet.DhtForwardingRuns
import Gnunet.FsKeywordSearchRuns
import Gnunet.CoreTypeMapRuns
import Gnunet.CoreTransmissionRuns
import Gnunet.MessageQueue
import Gnunet.DhtReplies
import Gnunet.DnsName
import Gnunet.CoreTypeMapMessage
import Gnunet.DhtClosest
import Gnunet.FsRequestPlan
import Gnunet.DhtSelection
import Gnunet.FragmentationLoss
import Gnunet.SetStrata
import Gnunet.CadetPaths
import Gnunet.DhtDistance
import Gnunet.InvertibleBloomFilterIndices
import Gnunet.ConfigurationDirty
import Gnunet.BandwidthDelay
