import SkyrUrl.Basic
import SkyrUrl.Context
import SkyrUrl.Host
import SkyrUrl.Handlers
import SkyrUrl.Driver
import SkyrUrl.Overrides
import SkyrUrl.Positions
import SkyrUrl.Rebase
import SkyrUrl.WellFormed
import SkyrUrl.SlashVariant
import SkyrUrl.Authority
import SkyrUrl.Safety
import SkyrUrl.Backslash
import SkyrUrl.Ipv4
import SkyrUrl.HostPort
import SkyrUrl.Paths
import SkyrUrl.Resolution
import SkyrUrl.Ipv6
import SkyrUrl.Shape
import SkyrUrl.Ipv6Text
import SkyrUrl.Setters
import SkyrUrl.Hosts
import SkyrUrl.Userinfo
import SkyrUrl.OpaquePath
